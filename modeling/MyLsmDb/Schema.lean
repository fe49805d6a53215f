import MyLsmDb.Manifest
import MyLsmDb.Registry

/-! The schema: the ids of the collections and their fields, and the indexes over fields. It
is stored as lines of words in which the blanks of a name are escaped. -/
namespace MyLsmDb
open OrderedEntries (OrderedMap)
open Text

instance idOrder : LinearOrder UInt32 where
  le_refl := UInt32.le_refl
  le_trans _ _ _ := UInt32.le_trans
  le_antisymm _ _ := UInt32.le_antisymm
  le_total := UInt32.le_total
  lt_iff_le_not_ge _ _ := by
    rw [UInt32.lt_iff_toNat_lt, UInt32.le_iff_toNat_le, UInt32.le_iff_toNat_le]
    omega
  toDecidableLE := inferInstance
  toDecidableLT := inferInstance
  toDecidableEq := inferInstance

instance lawfulId : LawfulBEq UInt32 := inferInstance

inductive IndexStatus where
  | building
  | ready
  deriving DecidableEq, Repr

namespace IndexStatus

def code : IndexStatus → Chars
  | building => ['B', 'U', 'I', 'L', 'D', 'I', 'N', 'G']
  | ready => ['R', 'E', 'A', 'D', 'Y']

def fromCode (s : Chars) : Fallible IndexStatus :=
  if s = ['B', 'U', 'I', 'L', 'D', 'I', 'N', 'G'] then pure building
  else if s = ['R', 'E', 'A', 'D', 'Y'] then pure ready
  else invalidFormat "unknown index status"

end IndexStatus

structure IndexDef where
  id : UInt32
  collectionId : UInt32
  fieldIds : List UInt32
  status : IndexStatus
  deriving DecidableEq, Repr

structure Schema where
  nextCollectionId : UInt32
  nextFieldId : UInt32
  collectionName : OrderedMap UInt32 Chars
  collectionIdOf : OrderedMap Chars UInt32
  fieldName : OrderedMap (UInt32 ×ₗ UInt32) Chars
  fieldIdOf : OrderedMap (UInt32 ×ₗ Chars) UInt32
  changed : Bool
  nextIndexId : UInt32
  indexes : List IndexDef
  deriving DecidableEq

def escape (s : Chars) : Chars :=
  replace [' '] ['%', '2', '0'] (replace ['%'] ['%', '2', '5'] s)

def unescape (s : Chars) : Chars :=
  replace ['%', '2', '5'] ['%'] (replace ['%', '2', '0'] [' '] s)

namespace Schema

def new : Schema := ⟨0, 0, .empty, .empty, .empty, .empty, false, 0, []⟩

def collectionId (s : Schema) (name : Chars) : UInt32 × Schema :=
  match s.collectionIdOf.get name with
  | some id => (id, s)
  | none =>
    let id := s.nextCollectionId
    (id, { s with
      nextCollectionId := id + 1
      changed := true
      collectionName := s.collectionName.insert id name
      collectionIdOf := s.collectionIdOf.insert name id })

def lookupCollectionId (s : Schema) (name : Chars) : Option UInt32 := s.collectionIdOf.get name

def lookupFieldId (s : Schema) (collection : UInt32) (name : Chars) : Option UInt32 :=
  s.fieldIdOf.get (toLex (collection, name))

def fieldId (s : Schema) (collection : UInt32) (name : Chars) : UInt32 × Schema :=
  match s.fieldIdOf.get (toLex (collection, name)) with
  | some id => (id, s)
  | none =>
    let id := s.nextFieldId
    (id, { s with
      nextFieldId := id + 1
      changed := true
      fieldName := s.fieldName.insert (toLex (collection, id)) name
      fieldIdOf := s.fieldIdOf.insert (toLex (collection, name)) id })

def findIndexByFields (s : Schema) (collection : UInt32) (fieldIds : List UInt32) :
    Option IndexDef :=
  s.indexes.find? (fun i => i.collectionId = collection ∧ i.fieldIds = fieldIds)

def createCompositeIndex (s : Schema) (collection : UInt32) (fieldIds : List UInt32) :
    UInt32 × Schema :=
  match s.findIndexByFields collection fieldIds with
  | some i => (i.id, s)
  | none =>
    let id := s.nextIndexId
    (id, { s with
      nextIndexId := id + 1
      changed := true
      indexes := s.indexes ++ [⟨id, collection, fieldIds, .building⟩] })

def createIndex (s : Schema) (collection field : UInt32) : UInt32 × Schema :=
  s.createCompositeIndex collection [field]

def findIndex (s : Schema) (collection field : UInt32) : Option IndexDef :=
  s.findIndexByFields collection [field]

def indexById (s : Schema) (id : UInt32) : Option IndexDef := s.indexes.find? (fun i => i.id = id)

def readyFirst (indexId : UInt32) : List IndexDef → List IndexDef
  | [] => []
  | i :: rest =>
    if i.id = indexId then { i with status := .ready } :: rest else i :: readyFirst indexId rest

def setIndexReady (s : Schema) (indexId : UInt32) : Schema :=
  match s.indexById indexId with
  | none => s
  | some i =>
    if i.status ≠ .ready then { s with indexes := readyFirst indexId s.indexes, changed := true }
    else s

def dropIndex (s : Schema) (indexId : UInt32) : Schema :=
  let kept := s.indexes.filter (fun i => i.id ≠ indexId)
  { s with
    indexes := kept
    changed := if kept.length ≠ s.indexes.length then true else s.changed }

def buildingIndexes (s : Schema) : List IndexDef :=
  s.indexes.filter (fun i => i.status = .building)

def collectionLine (e : UInt32 × Chars) : List Chars := [['C'], decimal e.1.toNat, escape e.2]

def fieldLine (e : (UInt32 ×ₗ UInt32) × Chars) : List Chars :=
  [['F'], decimal (ofLex e.1).1.toNat, decimal (ofLex e.1).2.toNat, escape e.2]

def decimals (ids : List UInt32) : List Chars := ids.map (fun f => decimal f.toNat)

def indexLine (i : IndexDef) : List Chars :=
  [['I', 'X'], decimal i.id.toNat, decimal i.collectionId.toNat, i.status.code,
    decimal i.fieldIds.length, joinSpace (decimals i.fieldIds)]

def sortedIndexes (s : Schema) : List IndexDef :=
  s.indexes.insertionSort (fun a b => a.id ≤ b.id)

def savedLines (s : Schema) : List (List Chars) :=
  [[['N', 'C'], decimal s.nextCollectionId.toNat], [['N', 'F'], decimal s.nextFieldId.toNat]] ++
    s.collectionName.entries.map collectionLine ++ s.fieldName.entries.map fieldLine ++
    [[['N', 'I'], decimal s.nextIndexId.toNat]] ++ s.sortedIndexes.map indexLine

def save (s : Schema) : Chars := s.savedLines.flatMap (fun words => joinSpace words ++ ['\n'])

def saved (s : Schema) : Schema := { s with changed := false }

def number (missing bad : String) : List Chars → Fallible (UInt32 × List Chars)
  | [] => invalidFormat missing
  | w :: rest =>
    match parseDecimal (2 ^ 32) w with
    | some n => pure (UInt32.ofNat n, rest)
    | none => invalidFormat bad

def fields : List Chars → Fallible (List UInt32)
  | [] => pure []
  | w :: rest => do
    match parseDecimal (2 ^ 32) w with
    | some n => return UInt32.ofNat n :: (← fields rest)
    | none => invalidFormat "schema IX field"

/-- What an index line has behind the collection: one field and the status, as older versions
wrote it, or the status, the number of fields and the fields. -/
def loadIndex : List Chars → Fallible (List UInt32 × IndexStatus)
  | [field, status] => do
    let ids ← fields [field]
    return (ids, ← IndexStatus.fromCode status)
  | status :: count :: ids => do
    let status ← IndexStatus.fromCode status
    match parseDecimal (2 ^ 64) count with
    | none => invalidFormat "schema IX nfields"
    | some n =>
      if ids.length ≠ n then invalidFormat "schema IX nfields mismatch"
      else return (← fields ids, status)
  | _ => invalidFormat "schema IX malformed"

def loadLine (s : Schema) (words : List Chars) : Fallible Schema :=
  match words with
  | [] => pure s
  | key :: rest =>
    if key = ['N', 'C'] then do
      let (id, _) ← number "schema NC" "schema NC id" rest
      return { s with nextCollectionId := id }
    else if key = ['N', 'F'] then do
      let (id, _) ← number "schema NF" "schema NF id" rest
      return { s with nextFieldId := id }
    else if key = ['C'] then do
      let (id, rest) ← number "schema C id" "schema C" rest
      let (name, _) ← Manifest.word "schema C name" rest
      let name := unescape name
      return { s with
        collectionName := s.collectionName.insert id name
        collectionIdOf := s.collectionIdOf.insert name id }
    else if key = ['F'] then do
      let (c, rest) ← number "schema F col" "schema F" rest
      let (f, rest) ← number "schema F field" "schema F field" rest
      let (name, _) ← Manifest.word "schema F name" rest
      let name := unescape name
      return { s with
        fieldName := s.fieldName.insert (toLex (c, f)) name
        fieldIdOf := s.fieldIdOf.insert (toLex (c, name)) f }
    else if key = ['N', 'I'] then do
      let (id, _) ← number "schema NI" "schema NI id" rest
      return { s with nextIndexId := id }
    else if key = ['I', 'X'] then do
      let (id, rest) ← number "schema IX id" "schema IX id" rest
      let (c, rest) ← number "schema IX col" "schema IX col" rest
      let (ids, status) ← loadIndex rest
      return { s with indexes := s.indexes ++ [⟨id, c, ids, status⟩] }
    else pure s

def load (text : Option Chars) : Fallible Schema :=
  match text with
  | none => pure new
  | some text => (lines text).foldlM (fun s line => loadLine s (tokens line)) new

end Schema
end MyLsmDb
