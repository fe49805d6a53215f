import MyLsmDb.Expression
import MyLsmDb.IndexRange

/-! Queries as they are built and as they are executed: the logical plan, which the builder
wraps from the inside out, and the physical plan that the planner makes of it. -/
namespace MyLsmDb
open Text

inductive SortDir where
  | asc
  | desc
  deriving DecidableEq, Repr

inductive Aggregate where
  | count
  | sum (field : Chars)
  | avg (field : Chars)
  | min (field : Chars)
  | max (field : Chars)
  deriving DecidableEq

inductive LogicalPlan where
  | collection (name : Chars)
  | filter (input : LogicalPlan) (pred : Predicate)
  | sort (input : LogicalPlan) (field : Chars) (dir : SortDir)
  | limit (input : LogicalPlan) (n : Nat)
  deriving DecidableEq

structure QueryBuilder where
  collection : Chars
  plan : LogicalPlan
  projection : Option (List Chars)
  aggregation : Option Aggregate
  deriving DecidableEq

namespace QueryBuilder

def new (collection : Chars) : QueryBuilder := ⟨collection, .collection collection, none, none⟩

/-- A filter on top of a filter is joined to it. -/
def filter (b : QueryBuilder) (pred : Predicate) : QueryBuilder :=
  { b with plan := match b.plan with
    | .filter input old => .filter input (.and old pred)
    | other => .filter other pred }

def sort (b : QueryBuilder) (field : Chars) (dir : SortDir) : QueryBuilder :=
  { b with plan := .sort b.plan field dir }

def limit (b : QueryBuilder) (n : Nat) : QueryBuilder := { b with plan := .limit b.plan n }

def project (b : QueryBuilder) (fields : List Chars) : QueryBuilder :=
  { b with projection := some fields }

def aggregate (b : QueryBuilder) (agg : Aggregate) : QueryBuilder :=
  { b with aggregation := some agg }

def build (b : QueryBuilder) : LogicalPlan := b.plan

end QueryBuilder

inductive PhysicalPlan where
  | indexScan (collection field : Chars) (lower upper : Bound)
  | compositeIndexScan (collection : Chars) (indexId : UInt32) (fieldIds : List Chars)
      (leading : List Leading)
  | fullScan (collection : Chars)
  | indexOrderScan (collection field : Chars) (lower upper : Bound) (dir : SortDir)
  | unionIds (branches : List PhysicalPlan)
  | fetch (input : PhysicalPlan) (collection : Chars)
  | filter (input : PhysicalPlan) (pred : Predicate)
  | sort (input : PhysicalPlan) (field : Chars) (dir : SortDir)
  | limit (input : PhysicalPlan) (n : Nat)

/-- Where the variant stands in the declaration. -/
def PhysicalPlan.discriminant : PhysicalPlan → Nat
  | .indexScan .. => 0
  | .compositeIndexScan .. => 1
  | .fullScan .. => 2
  | .indexOrderScan .. => 3
  | .unionIds .. => 4
  | .fetch .. => 5
  | .filter .. => 6
  | .sort .. => 7
  | .limit .. => 8

end MyLsmDb
