import MyLsmDb.Acceptance
import MyLsmDb.Plan
import MyLsmDb.Schema
import MyLsmDb.Unicode

/-! From a query text to the builder that the planner gets: parameters are put in, names are
checked against the schema, and lists of operands become binary connectives. -/
namespace MyLsmDb.Lsmql
open Effect (Stop)
open Text (Chars)

abbrev DbValue := MyLsmDb.Value
abbrev DbPred := MyLsmDb.Predicate

inductive SemanticError where
  | unknownCollection (collection : Chars)
  | unknownField (collection field : Chars)
  | typeMismatch (field : Chars) (expected got : String)
  | unboundParameter (name : Chars)
  deriving DecidableEq

inductive LsmqlError where
  | parse (e : ParseError)
  | semantic (e : SemanticError)
  | unsupported (feature reason : String)
  deriving DecidableEq

/-- A result, or an error, or a panic. -/
abbrev Translated := Except (Stop LsmqlError)

def semantic {α : Type} (e : SemanticError) : Translated α := .error (.error (.semantic e))

def unsupported {α : Type} (feature reason : String) : Translated α :=
  .error (.error (.unsupported feature reason))

def syntactic {α : Type} : LsmqlResult α → Translated α
  | .ok a => .ok a
  | .error e => .error (.error (.parse e))

/-- The values of the parameters that are bound. -/
abbrev Params := Chars → Option DbValue

def dbValueToLsmql : DbValue → Value
  | .string s => .string s.chars
  | .int i => .number (Binary64.ofInt i.toInt)
  | .float f => .number f
  | .bool b => .bool b
  | .null => .null
  | .bytes _ => .null

def toDbValue : Value → Translated DbValue
  | .string s => pure (.string (.ofChars s))
  | .number n =>
    if Binary64.whole n && Binary64.lt (Binary64.abs n) (Binary64.ofInt (2 ^ 63 - 1)) then
      pure (.int (Binary64.toInt64 n))
    else pure (.float n)
  | .bool b => pure (.bool b)
  | .null => pure .null
  | .param name => semantic (.unboundParameter name)

section Substitution
variable (params : Params)

def substValue : Value → Translated Value
  | .param name => match params name with
    | some v => pure (dbValueToLsmql v)
    | none => semantic (.unboundParameter name)
  | v => pure v

def substPred : Predicate → Translated Predicate
  | .eq f v => do return .eq f (← substValue params v)
  | .ne f v => do return .ne f (← substValue params v)
  | .lt f v => do return .lt f (← substValue params v)
  | .le f v => do return .le f (← substValue params v)
  | .gt f v => do return .gt f (← substValue params v)
  | .ge f v => do return .ge f (← substValue params v)
  | .in_ f vals => do return .in_ f (← vals.mapM (substValue params))
  | .isNull f => pure (.isNull f)
  | .isAbsent f => pure (.isAbsent f)

mutual

def substExpr : Expr → Translated Expr
  | .and es => do return .and (← substExprs es)
  | .or es => do return .or (← substExprs es)
  | .not e => do return .not (← substExpr e)
  | .pred p => do return .pred (← substPred params p)

def substExprs : List Expr → Translated (List Expr)
  | [] => pure []
  | e :: es => do
    let e ← substExpr e
    return e :: (← substExprs es)

end

def substituteParams (q : Query) : Translated Query := do
  match q.predicate with
  | none => pure q
  | some e => return { q with predicate := some (← substExpr params e) }

end Substitution

def valueTypeName : Value → String
  | .string _ => "string"
  | .number _ => "number"
  | .bool _ => "bool"
  | .null => "null"
  | .param _ => "param"

def checkValueType : Value → Translated Unit
  | .param name => semantic (.unboundParameter name)
  | _ => pure ()

/-- The values of a list have one type. -/
def checkList (field : Chars) : Option String → List Value → Translated Unit
  | _, [] => pure ()
  | seen, v :: vals => do
    checkValueType v
    let t := valueTypeName v
    match seen with
    | some s =>
      if s ≠ t then semantic (.typeMismatch field s t) else checkList field (some s) vals
    | none => checkList field (some t) vals

section Validation
variable (schema : Schema) (c : UInt32) (collection : Chars)

def checkField (field : Chars) : Translated Unit :=
  if field = ['i', 'd'] then pure ()
  else if (schema.lookupFieldId c field).isNone then semantic (.unknownField collection field)
  else pure ()

def checkComparison (field : Chars) (v : Value) : Translated Unit := do
  checkField schema c collection field
  checkValueType v

/-- `IS ABSENT` is refused later, whatever the field. -/
def validatePred : Predicate → Translated Unit
  | .eq f v => checkComparison schema c collection f v
  | .ne f v => checkComparison schema c collection f v
  | .lt f v => checkComparison schema c collection f v
  | .le f v => checkComparison schema c collection f v
  | .gt f v => checkComparison schema c collection f v
  | .ge f v => checkComparison schema c collection f v
  | .in_ f vals => do
    checkField schema c collection f
    checkList f none vals
  | .isNull f => checkField schema c collection f
  | .isAbsent _ => pure ()

mutual

def validateExpr : Expr → Translated Unit
  | .and es => validateExprs es
  | .or es => validateExprs es
  | .not e => validateExpr e
  | .pred p => validatePred schema c collection p

def validateExprs : List Expr → Translated Unit
  | [] => pure ()
  | e :: es => do
    validateExpr e
    validateExprs es

end

def validateItem : ProjItem → Translated Unit
  | .field f => checkField schema c collection f
  | .agg _ (some f) => checkField schema c collection f
  | .agg _ none => pure ()

def validateProjection : Projection → Translated Unit
  | .star => pure ()
  | .items items => items.forM (validateItem schema c collection)

end Validation

def validate (q : Query) (schema : Schema) : Translated Unit := do
  if q.groupBy ≠ [] then unsupported "GROUP BY" "not implemented in v1"
  else match schema.lookupCollectionId q.source with
    | none => semantic (.unknownCollection q.source)
    | some c => do
      validateProjection schema c q.source q.projection
      q.orderBy.forM (fun o => checkField schema c q.source o.field)
      match q.predicate with
      | none => pure ()
      | some e => validateExpr schema c q.source e

def fieldCmp (field : Chars) (cmp : Cmp) (v : Value) : Translated DbPred := do
  return .field field cmp (← toDbValue v)

def unwrapped {α : Type} : Translated α → Translated α
  | .ok a => .ok a
  | .error _ => .error .panic

def toAtom : Predicate → Translated DbPred
  | .eq f v => fieldCmp f .eq v
  | .ne f v => fieldCmp f .ne v
  | .lt f v => fieldCmp f .lt v
  | .le f v => fieldCmp f .lte v
  | .gt f v => fieldCmp f .gt v
  | .ge f v => fieldCmp f .gte v
  | .in_ _ [] => .error .panic
  | .in_ f (v :: vals) => do
    let first ← fieldCmp f .eq v
    vals.foldlM (fun acc v => do return .or acc (← unwrapped (fieldCmp f .eq v))) first
  | .isNull f => pure (.field f .eq .null)
  | .isAbsent _ =>
    unsupported "IS ABSENT" "v1.3 Predicate has no 'absent' operator; reserved for future"

def joined (join : DbPred → DbPred → DbPred) (none : Translated DbPred) :
    List DbPred → Translated DbPred
  | [] => none
  | first :: rest => pure (rest.foldl join first)

mutual

def toPred : Expr → Translated DbPred
  | .and es => do
    let ps ← toPreds es
    joined .and (unsupported "empty AND" "parser should not produce this") ps
  | .or es => do
    let ps ← toPreds es
    joined .or (unsupported "empty OR" "parser should not produce this") ps
  | .not e => do return .not (← toPred e)
  | .pred p => toAtom p

def toPreds : List Expr → Translated (List DbPred)
  | [] => pure []
  | e :: es => do
    let p ← toPred e
    return p :: (← toPreds es)

end

def SortDir.asQueryDir : SortDir → MyLsmDb.SortDir
  | asc => .asc
  | desc => .desc

def toAggregate (kind : AggKind) (field : Option Chars) : Aggregate :=
  match kind with
  | .count => .count
  | .sum => .sum (field.getD [])
  | .avg => .avg (field.getD [])
  | .min => .min (field.getD [])
  | .max => .max (field.getD [])

def ProjItem.fieldName : ProjItem → Option Chars
  | field f => some f
  | agg .. => none

def ProjItem.aggregate : ProjItem → Option Aggregate
  | field _ => none
  | agg kind f => some (toAggregate kind f)

/-- Fields or an aggregate; of several aggregates the first one counts. -/
def project (b : QueryBuilder) (items : List ProjItem) : Translated QueryBuilder :=
  let fields := items.filterMap ProjItem.fieldName
  match items.filterMap ProjItem.aggregate with
  | [] => pure (if fields = [] then b else b.project fields)
  | agg :: _ =>
    if fields ≠ [] then
      unsupported "mixed projection + aggregation" "use either SELECT fields OR SELECT agg (not both)"
    else pure (b.aggregate agg)

def filtered (b : QueryBuilder) : Option Expr → Translated QueryBuilder
  | none => pure b
  | some e => do return b.filter (← toPred e)

/-- The sum of a LIMIT and an OFFSET is a number of the machine. -/
def limited (b : QueryBuilder) (limit : Option Nat) (offset : Nat) : Translated QueryBuilder :=
  match limit with
  | none => pure b
  | some n => if n + offset < 2 ^ 64 then pure (b.limit (n + offset)) else .error .panic

def toBuilder (q : Query) : Translated QueryBuilder := do
  let b ← filtered (.new q.source) q.predicate
  let b := q.orderBy.foldl (fun b o => b.sort o.field o.dir.asQueryDir) b
  let b ← limited b q.limit q.offset
  match q.projection with
  | .star => pure b
  | .items items => project b items

def parsed (src : Utf8) : Translated Query := do
  let tokens ← syntactic (tokenize src)
  syntactic (parse tokens)

def prepared (schema : Schema) (params : Params) (src : Utf8) : Translated (Query × QueryBuilder) := do
  let q ← parsed src
  let q ← substituteParams params q
  validate q schema
  let b ← toBuilder q
  return (q, b)

def planned (schema : Schema) (params : Params) (src : Utf8) : Translated (Query × QueryBuilder) := do
  let (q, b) ← prepared schema params src
  if q.explain then unsupported "EXPLAIN in run()" "use lsmql::explain() instead"
  else pure (q, b)

end MyLsmDb.Lsmql
