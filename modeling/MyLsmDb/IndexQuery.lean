import MyLsmDb.IndexRange
import MyLsmDb.ReadView

/-! Lookups through an index. The entries found are only candidates: each is checked against
the entity, so an entry that is out of date gives no answer that is wrong. -/
namespace MyLsmDb
open ByteOrder (Bytes)
open LittleEndian (fromLe)
open Text

def decodeEntityId (b : Bytes) : Fallible Utf8 :=
  if valid : isUtf8 b then pure ⟨b, valid⟩ else invalidFormat "entity id is not valid utf8"

def decodeIndexKey (key : Bytes) : Option (UInt32 × UInt32 × Bytes) :=
  if key.length < 13 ∨ key.head? ≠ some indexTag then none
  else
    let collection := readLe32 ((key.drop 1).take 4)
    let field := readLe32 ((key.drop 5).take 4)
    match Value.orderedValueLen (key.drop 9) with
    | .error _ => none
    | .ok valueLen =>
      let rest := key.drop (9 + valueLen)
      if rest.length < 4 then none
      else
        let entityLen := fromLe (rest.take 4)
        let rest := rest.drop 4
        if rest.length < entityLen then none
        else some (collection, field, rest.take entityLen)

namespace Index

/-- The value and the entity of an index key; `none` for any other key. -/
def decodeIndexKeyValue (key : Bytes) : Fallible (Option (Value × Utf8)) :=
  match decodeIndexKey key with
  | none => pure none
  | some (_, _, entity) => do
    let valueLen ← Value.orderedValueLen (key.drop 9)
    let value ← Value.decodeOrdered ((key.drop 9).take valueLen)
    let eid ← decodeEntityId entity
    return some (value, eid)

section View
variable (v : ReadView)

def fieldValue (c : UInt32) (e : Bytes) (f : UInt32) : Fallible (Option Value) := do
  match ← v.find (encodeEntityKey c e f) with
  | some bytes => return some (← Value.decode bytes)
  | none => return none

def findLoop (c f : UInt32) (lower upper : Bound) : List Utf8 → List Rec → Fallible (List Utf8)
  | _, [] => pure []
  | seen, (key, _) :: rows =>
    match decodeIndexKey key with
    | none => invalidFormat "bad index key"
    | some (_, _, entity) => do
      let eid ← decodeEntityId entity
      if eid ∈ seen then findLoop c f lower upper seen rows
      else
        match ← fieldValue v c entity f with
        | some actual =>
          if within actual lower upper then
            return eid :: (← findLoop c f lower upper (eid :: seen) rows)
          else findLoop c f lower upper (eid :: seen) rows
        | none => findLoop c f lower upper (eid :: seen) rows

def findM (schema : Schema) (c f : UInt32) (lower upper : Bound) : Fallible (List Utf8) :=
  if (schema.findIndex c f).isNone then invalidArgument "no index on field"
  else do
    let (start, stop) := indexRange c f lower upper
    let rows ← v.rows (some start) stop
    findLoop v c f lower upper [] rows

/-- The prefix of all components but the last, as far as their lower bounds are inclusive. -/
def equalityPrefix (pre : Bytes) : List Leading → Option Bytes
  | [] => some pre
  | [_] => some pre
  | (_, lower, _) :: rest =>
    match lower with
    | .inclusive v => equalityPrefix (pre ++ v.encodeOrdered) rest
    | _ => none

def compositeIndexRange (c index : UInt32) (leading : List Leading) : Bytes × Option Bytes :=
  let pre := compositePrefix c index
  match equalityPrefix pre leading with
  | none => (pre, successor pre)
  | some eq =>
    match leading.getLast? with
    | none => (eq, some ((successor pre).getD pre))
    | some (_, lower, upper) =>
      let start := match lower with
        | .unbounded => eq
        | .inclusive v => eq ++ v.encodeOrdered
        | .exclusive v => eq ++ (successor v.encodeOrdered).getD []
      let stop := match upper with
        | .unbounded => (successor eq).getD eq
        | .inclusive v => eq ++ (successor v.encodeOrdered).getD []
        | .exclusive v => eq ++ v.encodeOrdered
      (start, some stop)

def readComponents : Nat → Bytes → Fallible (List Value × Bytes)
  | 0, rest => pure ([], rest)
  | n + 1, rest => do
    let len ← Value.orderedValueLen rest
    let value ← Value.decodeOrdered (rest.take len)
    let (values, rest) ← readComponents n (rest.drop len)
    return (value :: values, rest)

/-- The components and the entity of a composite key; `none` for any other key. -/
def decodeCompositeKeyValue (key : Bytes) (n : Nat) : Fallible (Option (List Value × Utf8)) :=
  if key.length < 17 ∨ key.head? ≠ some indexTag then pure none
  else if readLe32 ((key.drop 5).take 4) ≠ compositeFieldMarker then pure none
  else do
    let (comps, rest) ← readComponents n (key.drop 13)
    if rest.length < 4 then return none
    let entityLen := fromLe (rest.take 4)
    let rest := rest.drop 4
    if rest.length < entityLen then return none
    let eid ← decodeEntityId (rest.take entityLen)
    return some (comps, eid)

def verified (c : UInt32) (fids : List UInt32) (e : Bytes) : List Leading → Fallible Bool
  | [] => pure true
  | (idx, lower, upper) :: rest =>
    match fids[idx]? with
    | none => throw .panic
    | some fid => do
      match ← fieldValue v c e fid with
      | none => return false
      | some actual =>
        if within actual lower upper then verified c fids e rest else return false

def findCompositeLoop (c : UInt32) (fids : List UInt32) (n : Nat) (leading : List Leading) :
    List Utf8 → List Rec → Fallible (List Utf8)
  | _, [] => pure []
  | seen, (key, _) :: rows => do
    match ← decodeCompositeKeyValue key n with
    | none => findCompositeLoop c fids n leading seen rows
    | some (_, eid) =>
      if ← verified v c fids eid.bytes leading then
        if eid ∈ seen then findCompositeLoop c fids n leading seen rows
        else return eid :: (← findCompositeLoop c fids n leading (eid :: seen) rows)
      else findCompositeLoop c fids n leading seen rows

def findCompositeM (schema : Schema) (c index : UInt32) (n : Nat) (leading : List Leading) :
    Fallible (List Utf8) :=
  match schema.indexById index with
  | none => invalidArgument "composite index not found"
  | some def_ =>
    if def_.status ≠ .ready then invalidArgument "composite index not ready"
    else do
      let (start, stop) := compositeIndexRange c index leading
      let rows ← v.rows (some start) stop
      findCompositeLoop v c def_.fieldIds n leading [] rows

end View
end Index
end MyLsmDb
