import MyLsmDb.Aggregates
import MyLsmDb.PlanAnswers
import MyLsmDb.Translate

/-! From a query text to its result: what the language says of the entities of a collection is what
the planner and the executor give. -/
namespace MyLsmDb
open Effect (Stop)
open Executor
open OrderedEntries
open Text (Chars)

def executeQuery (v : ReadView) (schema : Schema) (b : QueryBuilder) : Fallible (List Row) := do
  if b.aggregation.isSome then
    invalidArgument "query has an aggregation; use execute_aggregate"
  if b.projection = some [] then invalidArgument "empty projection"
  let physical ← Planner.plan schema b.build
  let rows ← run v schema physical
  return match b.projection with
    | some fields => projectRows fields rows
    | none => rows

def executeAggregate (v : ReadView) (schema : Schema) (b : QueryBuilder) :
    Fallible (Option Value) := do
  if b.projection.isSome then
    invalidArgument "query has a projection; aggregation is mutually exclusive"
  match b.aggregation with
  | none => invalidArgument "no aggregation specified"
  | some agg => do
    let physical ← Planner.plan schema b.build
    aggregateRows (← run v schema physical) agg

namespace Lsmql

inductive QueryResult where
  | rows (rows : List (Utf8 × OrderedMap Chars DbValue))
  | scalar (value : Option DbValue)

/-- An error of the language, or one of the store. -/
inductive RunError where
  | lsmql (e : LsmqlError)
  | execution (e : Error)

theorem charsLawful : LawfulBEq Chars := inferInstance

attribute [local instance] charsLawful in
def entityToMap (e : Entity) : OrderedMap Chars DbValue :=
  e.fields.foldl (fun m f => m.insert f.1 f.2) .empty

def reported {ε α : Type} (f : ε → RunError) : Except (Stop ε) α → Except (Stop RunError) α
  | .ok a => .ok a
  | .error (.error e) => .error (.error (f e))
  | .error .panic => .error .panic
  | .error .crash => .error .crash

def run (v : ReadView) (schema : Schema) (params : Params) (src : Utf8) :
    Except (Stop RunError) QueryResult := do
  let (q, b) ← reported .lsmql (planned schema params src)
  if b.aggregation.isSome then
    return .scalar (← reported .execution (executeAggregate v schema b))
  else
    let raw ← reported .execution (executeQuery v schema b)
    return .rows ((raw.drop q.offset).map (fun r => (r.1, entityToMap r.2)))

section Meaning

def Query.fields (q : Query) : List Chars :=
  match q.projection with
  | .star => []
  | .items items => items.filterMap ProjItem.fieldName

def Query.aggregates (q : Query) : List Aggregate :=
  match q.projection with
  | .star => []
  | .items items => items.filterMap ProjItem.aggregate

/-- The entities that satisfy the predicate, in the order that the query gives them. -/
def Query.sorted (q : Query) (pred : Option DbPred) (rows : List Row) : List Row :=
  let kept := rows.filter (Planner.passedAll pred)
  match q.orderBy with
  | [] => kept
  | o :: _ => sortRows o.field o.dir.asQueryDir kept

def Query.firstOf (q : Query) (n : Nat) (rows : List Row) : List Row :=
  match q.limit with
  | some limit => rows.take (limit + n)
  | none => rows

def Query.projected (q : Query) (rows : List Row) : List Row :=
  if q.fields = [] then rows else projectRows q.fields rows

/-- The rows of a query: those behind the OFFSET, as many as the LIMIT says. -/
def Query.answer (q : Query) (pred : Option DbPred) (rows : List Row) : List Row :=
  q.projected (q.firstOf 0 ((q.sorted pred rows).drop q.offset))

/-- What the query says of the entities of its collection. An aggregate is over all rows up to the
end of the window. -/
def Query.result (q : Query) (pred : Option DbPred) (rows : List Row) :
    Except (Stop RunError) QueryResult :=
  match q.aggregates with
  | [] => .ok (.rows ((q.answer pred rows).map (fun r => (r.1, entityToMap r.2))))
  | agg :: _ => do
    return .scalar (← reported .execution
      (aggregateRows (q.firstOf q.offset (q.sorted pred rows)) agg))

def filteredPlan (source : Chars) : Option DbPred → LogicalPlan
  | none => .collection source
  | some p => .filter (.collection source) p

def sortedPlan (orderBy : List OrderItem) (plan : LogicalPlan) : LogicalPlan :=
  orderBy.foldl (fun l o => .sort l o.field o.dir.asQueryDir) plan

def limitedPlan (plan : LogicalPlan) (limit : Option Nat) (offset : Nat) : LogicalPlan :=
  match limit with
  | some n => .limit plan (n + offset)
  | none => plan

def Query.logical (q : Query) (pred : Option DbPred) : LogicalPlan :=
  limitedPlan (sortedPlan q.orderBy (filteredPlan q.source pred)) q.limit q.offset

end Meaning

section Building
variable {q : Query} {b b' : QueryBuilder} {pred : Option DbPred}

end Building

section Regularity
variable {q : Query} {pred : Option DbPred}

end Regularity

section Running
variable {v : ReadView} {schema : Schema} {params : Params} {src : Utf8} {q : Query} {b : QueryBuilder}
  {pred : Option DbPred} {physical : PhysicalPlan} {rows : List Row}

end Running

section Pair
open Index (pairSchema pairRows)

end Pair
end Lsmql
end MyLsmDb
