import MyLsmDb.Plan
import MyLsmDb.PlanBounds
import MyLsmDb.Schema

/-! The planner: for each clause of the predicate one index is chosen, or none, and the literals
that the index answers are left out of the filter behind it. -/
namespace MyLsmDb
open Text

inductive Shape where
  | eq
  | between
  | oneSided
  deriving DecidableEq

/-- In thousandths. -/
def Shape.selectivity : Shape → Nat
  | .eq => 100
  | .between => 250
  | .oneSided => 500

namespace Planner

def fieldShape (lits : List Lit) (field : Chars) (lower upper : Bound) : Shape :=
  if lits.any (fun l => l.indexable && l.field = field && l.cmp = .eq) then .eq
  else match lower, upper with
    | .unbounded, _ => .oneSided
    | _, .unbounded => .oneSided
    | _, _ => .between

def tighter (la ua lb ub : Bound) : Bool :=
  if lowerStronger la lb then true
  else if lowerStronger lb la then false
  else upperStronger ua ub

/-- A field, what its literals are like and their bounds. -/
abbrev Candidate := Chars × Shape × Bound × Bound

def cheaper (a b : Candidate) : Bool :=
  let costA := a.2.1.selectivity
  let costB := b.2.1.selectivity
  if costA < costB then true
  else if costB < costA then false
  else if tighter a.2.2.1 a.2.2.2 b.2.2.1 b.2.2.2 then true
  else if tighter b.2.2.1 b.2.2.2 a.2.2.1 a.2.2.2 then false
  else a.1 < b.1

def clauseResidual : List Lit → Fallible Predicate
  | [] => throw .panic
  | l :: rest => pure (rest.foldl (fun p l => .and p l.toPredicate) l.toPredicate)

section Choice
variable (schema : Schema) (c : UInt32)

def readyIndex (field : Chars) : Bool :=
  match schema.lookupFieldId c field with
  | none => false
  | some f => match schema.findIndex c f with
    | none => false
    | some i => i.status = .ready

def candidate (lits : List Lit) (field : Chars) : Candidate :=
  let (lower, upper) := mergeBounds lits field
  (field, fieldShape lits field lower upper, lower, upper)

/-- The fields of a clause that an index is ready for, each once and in order. -/
def indexedFields (lits : List Lit) : List Chars :=
  (((lits.filter (fun l => l.indexable && readyIndex schema c l.field)).map Lit.field).mergeSort
    (fun a b => a ≤ b)).dedup

def cheapest (best : Option Candidate) (cand : Candidate) : Option Candidate :=
  match best with
  | none => some cand
  | some b => some (if cheaper cand b then cand else b)

def pickIndexFieldCost (lits : List Lit) : Option Chars :=
  (((indexedFields schema c lits).map (candidate lits)).foldl cheapest none).map Prod.fst

/-- The components of an index that the clause binds, from the first one up to one that it does not
bind to a value; `none` where a field has no name. -/
def leadingFrom (clause : List Lit) : Nat → List UInt32 → Option (List Leading)
  | _, [] => some []
  | pos, fid :: rest => do
    let name ← schema.fieldName.get (toLex (c, fid))
    match clause.find? (fun l => l.field = name && l.indexable) with
    | none => return []
    | some l =>
      let bounds := mergeBounds clause name
      if l.cmp ≠ .eq then return [(pos, bounds)]
      else return (pos, bounds) :: (← leadingFrom clause (pos + 1) rest)

structure CompositeChoice where
  index : UInt32
  fids : List UInt32
  leading : List Leading

/-- The longer prefix wins, then the lesser list of fields. -/
def betterComposite (best : Option CompositeChoice) (cand : CompositeChoice) :
    Option CompositeChoice :=
  match best with
  | none => some cand
  | some b =>
    some (if b.leading.length < cand.leading.length ∨
      (cand.leading.length = b.leading.length ∧ cand.fids < b.fids) then cand else b)

def compositeCandidate (clause : List Lit) (i : IndexDef) : Option CompositeChoice :=
  match leadingFrom schema c clause 0 i.fieldIds with
  | none => none
  | some [] => none
  | some leading => some ⟨i.id, i.fieldIds, leading⟩

def pickCompositeIndex (clause : List Lit) : Option CompositeChoice :=
  ((schema.indexes.filter (fun i =>
    i.collectionId = c ∧ i.status = .ready ∧ 2 ≤ i.fieldIds.length)).filterMap
      (compositeCandidate schema c clause)).foldl betterComposite none

def nameOf (f : UInt32) : Fallible Chars :=
  match schema.fieldName.get (toLex (c, f)) with
  | some name => pure name
  | none => throw .panic

variable (collection : Chars) (clause : List Lit)

def fullSource : PhysicalPlan × List Lit := (.fullScan collection, clause)

def singleSource (field : Chars) : PhysicalPlan × List Lit :=
  let (lower, upper) := mergeBounds clause field
  (.fetch (.indexScan collection field lower upper) collection,
    clause.filter (fun l => !(l.field = field && l.indexable)))

def compositeSource (x : CompositeChoice) : Fallible (PhysicalPlan × List Lit) := do
  let names ← x.fids.mapM (nameOf schema c)
  let covered (l : Lit) := x.leading.any (fun b => names[b.1]? = some l.field && l.indexable)
  return (.fetch (.compositeIndexScan collection x.index names x.leading) collection,
    clause.filter (fun l => !covered l))

/-- The source of rows for a clause, and the literals that are left to a filter. An index over
several fields comes first when it binds two of them, or one that no other index is over. -/
def planClause : Fallible (PhysicalPlan × List Lit) :=
  match pickIndexFieldCost schema c clause, pickCompositeIndex schema c clause with
  | none, none => pure (fullSource collection clause)
  | some field, none => pure (singleSource collection clause field)
  | none, some x => compositeSource schema c collection clause x
  | some field, some x =>
    if 2 ≤ x.leading.length then compositeSource schema c collection clause x
    else pure (singleSource collection clause field)

end Choice

section Plan
variable (schema : Schema)

/-- What the layers of a logical plan say; of two that say the same thing the inner one counts. -/
structure Parts where
  collection : Chars
  predicates : List Predicate
  sort : Option (Chars × SortDir)
  limit : Option Nat

def parts : LogicalPlan → Parts → Parts
  | .collection name, p => { p with collection := name }
  | .filter input pred, p => parts input { p with predicates := p.predicates ++ [pred] }
  | .sort input field dir, p => parts input { p with sort := some (field, dir) }
  | .limit input n, p => parts input { p with limit := some n }

def combined : List Predicate → Option Predicate
  | [] => none
  | p :: rest => some (rest.foldl .and p)

def clausesOf : Option Predicate → List (List Lit)
  | some p => dnf p
  | none => [[]]

def sourceOf (collection : Chars) (clause : List Lit) : Fallible (PhysicalPlan × List Lit) :=
  match schema.lookupCollectionId collection with
  | some c => planClause schema c collection clause
  | none => pure (fullSource collection clause)

def filteredBy (pred : Option Predicate) (rows : PhysicalPlan) : PhysicalPlan :=
  match pred with
  | some p => .filter rows p
  | none => rows

/-- The literals that are left of a single clause. -/
def residualOf (lits : List Lit) : Fallible (Option Predicate) :=
  if lits = [] then pure none else return some (← clauseResidual lits)

def planRows (collection : Chars) (pred : Option Predicate) : Fallible PhysicalPlan :=
  match clausesOf pred with
  | [clause] => do
    let (source, residual) ← sourceOf schema collection clause
    return filteredBy (← residualOf residual) source
  | clauses => do
    let branches ← clauses.mapM (fun clause => do
      return (← sourceOf schema collection clause).1)
    return filteredBy pred (.unionIds branches)

/-- Whether all rows that can satisfy the predicate have the field, and an index is over it. -/
def indexOrderEnabled (collection field : Chars) (clauses : List (List Lit)) : Bool :=
  match schema.lookupCollectionId collection with
  | none => false
  | some c => readyIndex schema c field &&
    clauses.all (fun clause => clause.any (fun l => l.field = field && l.indexable))

/-- What the range of an index that gives the order leaves to a filter. -/
def leftOf (field : Chars) (pred : Option Predicate) : Fallible (Option Predicate) :=
  match clausesOf pred with
  | [clause] => residualOf (clause.filter (fun l => !(l.field = field && l.indexable)))
  | _ => pure pred

def orderedPlan (collection field : Chars) (dir : SortDir) (n : Nat) (pred : Option Predicate) :
    Fallible PhysicalPlan := do
  let (lower, upper) := unionBounds (clausesOf pred) field
  let left ← leftOf field pred
  return .limit (filteredBy left (.indexOrderScan collection field lower upper dir)) n

def limitedTo (limit : Option Nat) (rows : PhysicalPlan) : PhysicalPlan :=
  match limit with
  | some n => .limit rows n
  | none => rows

/-- The rows are planned in every case, also where an index gives their order. -/
def planParts (p : Parts) : Fallible PhysicalPlan := do
  let pred := combined p.predicates
  let rows ← planRows schema p.collection pred
  match p.sort with
  | none => return limitedTo p.limit rows
  | some (field, dir) =>
    match p.limit with
    | some n =>
      if indexOrderEnabled schema p.collection field (clausesOf pred) then
        orderedPlan p.collection field dir n pred
      else return .limit (.sort rows field dir) n
    | none => return .sort rows field dir

def plan (logical : LogicalPlan) : Fallible PhysicalPlan :=
  planParts schema (parts logical ⟨[], [], none, none⟩)

end Plan
end Planner
end MyLsmDb
