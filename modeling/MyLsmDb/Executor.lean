import MyLsmDb.IndexQuery
import MyLsmDb.Plan

/-! Execution of a physical plan. Rows are pulled one by one: a source that cannot be read any
further gives an error in the place of a row, and what pulls the rows decides whether to go on. -/
namespace MyLsmDb
open ByteOrder (Bytes)
open Effect (Stop)
open Text

abbrev Row := Utf8 × Entity

namespace Executor

section Sources
variable (v : ReadView) (schema : Schema)

def finished : Option Row → List (Fallible Row)
  | some r => if r.2.fields = [] then [] else [pure r]
  | none => []

/-- `ScanAssembler`: the rows of fields, which lie together for each entity, as entities. -/
def assemble (c : UInt32) : Option Row → List (Except Error Rec) → List (Fallible Row)
  | current, [] => finished current
  | current, .error e :: rest => .error (.error e) :: assemble c current rest
  | current, .ok (key, value) :: rest =>
    match decodeEntityKey key, value with
    | none, _ => assemble c current rest
    | some _, none => assemble c current rest
    | some (_, entity, fid), some bytes =>
      match Value.decode bytes with
      | .error _ => invalidFormat "bad field value" :: assemble c current rest
      | .ok val =>
        match schema.fieldName.get (toLex (c, fid)) with
        | none => invalidFormat s!"unknown field id {fid.toNat}" :: assemble c current rest
        | some name =>
          match decodeEntityId entity with
          | .error e => .error e :: assemble c current rest
          | .ok eid =>
            match current with
            | some (id, ent) =>
              if id = eid then assemble c (some (id, ent.insert name val)) rest
              else finished current ++ assemble c (some (eid, Entity.new.insert name val)) rest
            | none => assemble c (some (eid, Entity.new.insert name val)) rest

def scanCollectionStream (collection : Chars) : Fallible (List (Fallible Row)) :=
  match schema.lookupCollectionId collection with
  | none => pure []
  | some c => do
    let start := collectionPrefix c
    let stream ← answered (v.scan (some start) (successor start))
    return assemble schema c none stream

def fetchRow (c : UInt32) (id : Utf8) : Option (Fallible Row) :=
  match v.read (coreGetEntity schema c id.bytes) with
  | .ok (some e) => some (pure (id, e))
  | .ok none => none
  | .error e => some (.error e)

def fetchStream (ids : List Utf8) (collection : Chars) : List (Fallible Row) :=
  match schema.lookupCollectionId collection with
  | none => []
  | some c => ids.filterMap (fetchRow v schema c)

def unknownField {α : Type} (field : Chars) : Fallible α :=
  invalidArgument s!"unknown field {String.ofList field}"

def noIndex {α : Type} (field : Chars) : Fallible α :=
  invalidArgument s!"no index on field {String.ofList field}"

def indexScan (collection field : Chars) (lower upper : Bound) : Fallible (List Utf8) :=
  match schema.lookupCollectionId collection with
  | none => pure []
  | some c =>
    match schema.lookupFieldId c field with
    | none => unknownField field
    | some f =>
      if (schema.findIndex c f).isNone then noIndex field
      else Index.findM v schema c f lower upper

def indexCompositeScan (collection : Chars) (index : UInt32) (fieldIds : List Chars)
    (leading : List Leading) : Fallible (List Utf8) :=
  match schema.lookupCollectionId collection with
  | none => pure []
  | some c => Index.findCompositeM v schema c index fieldIds.length leading

def flipped (dir : SortDir) (o : Ordering) : Ordering :=
  match dir with
  | .asc => o
  | .desc => o.swap

def candidateCmp (dir : SortDir) (a b : Value × Utf8) : Ordering :=
  (flipped dir (Value.valueCmp a.1 b.1)).then (cmp a.2.bytes b.2.bytes)

def candidates : List Rec → Fallible (List (Value × Utf8))
  | [] => pure []
  | (key, _) :: rows => do
    match ← Index.decodeIndexKeyValue key with
    | some cand => return cand :: (← candidates rows)
    | none => candidates rows

/-- `IndexOrderIter`: a candidate counts when the field still has a value in the range. -/
def orderRow (c f : UInt32) (lower upper : Bound) (cand : Value × Utf8) : Option (Fallible Row) :=
  match v.find (encodeEntityKey c cand.2.bytes f) with
  | .error e => some (.error e)
  | .ok none => none
  | .ok (some bytes) =>
    match Value.decode bytes with
    | .error e => some (.error e)
    | .ok actual => if within actual lower upper then fetchRow v schema c cand.2 else none

def indexOrderStream (collection field : Chars) (lower upper : Bound) (dir : SortDir) :
    Fallible (List (Fallible Row)) :=
  match schema.lookupCollectionId collection with
  | none => pure []
  | some c =>
    match schema.lookupFieldId c field with
    | none => unknownField field
    | some f =>
      if (schema.findIndex c f).isNone then noIndex field
      else do
        let (start, stop) := indexRange c f lower upper
        let rows ← v.rows (some start) stop
        let cands ← candidates rows
        let sorted := cands.mergeSort (fun a b => (candidateCmp dir a b).isLE)
        return sorted.filterMap (orderRow v schema c f lower upper)

end Sources

/-- Rows with the field missing come first, or last in a descending order; of two with the same
value the smaller id comes first. -/
def rowCmp (field : Chars) (dir : SortDir) (a b : Row) : Ordering :=
  let ord : Ordering := match a.2.field field, b.2.field field with
    | none, none => .eq
    | none, some _ => flipped dir .lt
    | some _, none => flipped dir .gt
    | some x, some y => flipped dir (Value.valueCmp x y)
  ord.then (cmp a.1.bytes b.1.bytes)

def sortRows (field : Chars) (dir : SortDir) (rows : List Row) : List Row :=
  rows.mergeSort (fun a b => (rowCmp field dir a b).isLE)

/-- What a filter lets through: the rows that satisfy the predicate. Errors go the way of the
other rows, but nothing comes behind a panic. -/
def passes (pred : Predicate) : Fallible Row → Bool
  | .ok r => match pred.eval r.2 with
    | .ok b => b
    | .error _ => false
  | .error (.error _) => false
  | .error _ => true

def firstRows : List Utf8 → List Row → List Row
  | _, [] => []
  | seen, r :: rows => if r.1 ∈ seen then firstRows seen rows else r :: firstRows (r.1 :: seen) rows

def firstIds : List Utf8 → List Utf8 → List Utf8
  | _, [] => []
  | seen, id :: ids => if id ∈ seen then firstIds seen ids else id :: firstIds (id :: seen) ids

section Execution
variable (v : ReadView) (schema : Schema)

mutual

def candidateIds : PhysicalPlan → Fallible (List Utf8)
  | .indexScan collection field lower upper => indexScan v schema collection field lower upper
  | .compositeIndexScan collection index fieldIds leading =>
    indexCompositeScan v schema collection index fieldIds leading
  | .unionIds branches => do return firstIds [] (← candidateBranches branches)
  | other => invalidFormat s!"plan is not id-producing: Discriminant({other.discriminant})"

def candidateBranches : List PhysicalPlan → Fallible (List Utf8)
  | [] => pure []
  | branch :: rest => do return (← candidateIds branch) ++ (← candidateBranches rest)

end

mutual

def execRows : PhysicalPlan → Fallible (List (Fallible Row))
  | .fullScan collection => scanCollectionStream v schema collection
  | .indexOrderScan collection field lower upper dir =>
    indexOrderStream v schema collection field lower upper dir
  | .indexScan collection field lower upper => do
    let ids ← candidateIds v schema (.indexScan collection field lower upper)
    return fetchStream v schema ids collection
  | .compositeIndexScan collection index fieldIds leading => do
    let ids ← candidateIds v schema (.compositeIndexScan collection index fieldIds leading)
    return fetchStream v schema ids collection
  | .fetch input collection => do
    let ids ← candidateIds v schema input
    return fetchStream v schema ids collection
  | .unionIds branches => do return (firstRows [] (← execBranches branches)).map pure
  | .filter input pred => do return (← execRows input).filter (passes pred)
  | .sort input field dir => do
    let rows ← collected (← execRows input)
    return (sortRows field dir rows).map pure
  | .limit input n => do return (← execRows input).take n

/-- The rows of the branches, one behind the other; each is collected before the next begins. -/
def execBranches : List PhysicalPlan → Fallible (List Row)
  | [] => pure []
  | branch :: rest => do
    let rows ← collected (← execRows branch)
    return rows ++ (← execBranches rest)

end

def run (plan : PhysicalPlan) : Fallible (List Row) := do collected (← execRows v schema plan)

end Execution

/-- The fields that are asked for, as far as the entity has them. -/
def projectRows (fields : List Chars) (rows : List Row) : List Row :=
  rows.map (fun r => (r.1, ⟨fields.filterMap (fun f => (r.2.field f).map (fun x => (f, x)))⟩))

end Executor
end MyLsmDb
