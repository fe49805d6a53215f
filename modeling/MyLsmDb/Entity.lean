import MyLsmDb.Binary64
import MyLsmDb.Value

/-! Entities as callers see them: named values, expectations about them, and patches. -/
namespace MyLsmDb
open ByteOrder (Bytes)
open Effect
open Text

structure Entity where
  fields : List (Chars × Value)
  deriving DecidableEq

inductive Expected where
  | any
  | absent
  | entity (e : Entity)
  | field (name : Chars) (value : Value)
  deriving DecidableEq

inductive Patch where
  | set (name : Chars) (value : Value)
  | remove (name : Chars)
  | increment (name : Chars) (delta : Value)
  deriving DecidableEq

def invalidArgument {α : Type} (what : String) : Fallible α := throw (.error (.invalidArgument what))

def utf8Text (b : Bytes) : String := (String.fromUTF8? ⟨b.toArray⟩).getD ""

namespace Value

def escapeDebug (c : Char) : String :=
  if c = '\t' then "\\t"
  else if c = '\r' then "\\r"
  else if c = '\n' then "\\n"
  else if c = '"' then "\\\""
  else if c = '\\' then "\\\\"
  else if c = '\x00' then "\\0"
  else if c.toNat < 32 ∨ c.toNat = 127 then
    "\\u\x7b" ++ String.ofList (Nat.toDigits 16 c.toNat) ++ "\x7d"
  else String.singleton c

/-- `{:?}` of the values that no increment takes; of the other two only the type. -/
def debug : Value → String
  | null => "Null"
  | bool b => if b then "Bool(true)" else "Bool(false)"
  | int _ => "Int"
  | float _ => "Float"
  | string s => "String(\"" ++ String.join ((utf8Text s.bytes).toList.map escapeDebug) ++ "\")"
  | bytes b => "Bytes([" ++ String.intercalate ", " (b.map (fun x => toString x.toNat)) ++ "])"

end Value

namespace Entity

def new : Entity := ⟨[]⟩

def insert (e : Entity) (name : Chars) (value : Value) : Entity := ⟨e.fields ++ [(name, value)]⟩

def field (e : Entity) (name : Chars) : Option Value := e.fields.lookup name

def setFirst (name : Chars) (value : Value) : List (Chars × Value) → List (Chars × Value)
  | [] => []
  | f :: rest => if f.1 = name then (f.1, value) :: rest else f :: setFirst name value rest

def remove (e : Entity) (name : Chars) : Entity := ⟨e.fields.filter (fun f => f.1 ≠ name)⟩

end Entity

/-- `==` of two entities, whatever the order of their fields. -/
def entityEq (a b : Entity) : Bool :=
  a.fields.length = b.fields.length &&
    a.fields.all (fun f => match b.field f.1 with
      | some bv => bv.partialEq f.2
      | none => false)

def optionEq : Option Value → Option Value → Bool
  | none, none => true
  | some a, some b => a.partialEq b
  | _, _ => false

def applyOne (entity : Entity) : Patch → Fallible Entity
  | .set name value =>
    pure (if (entity.field name).isSome then ⟨Entity.setFirst name value entity.fields⟩
      else entity.insert name value)
  | .remove name => pure (entity.remove name)
  | .increment name delta =>
    match entity.field name with
    | none => invalidArgument s!"increment on absent field '{String.ofList name}'"
    | some (.int c) =>
      match delta with
      | .int d => pure ⟨Entity.setFirst name (.int (c + d)) entity.fields⟩
      | _ => invalidArgument s!"increment delta for '{String.ofList name}' must be Int"
    | some (.float c) =>
      match delta with
      | .float d => pure ⟨Entity.setFirst name (.float (Binary64.add c d)) entity.fields⟩
      | _ => invalidArgument s!"increment delta for '{String.ofList name}' must be Float"
    | some other =>
      invalidArgument
        s!"increment on non-numeric field '{String.ofList name}' (has {Value.debug other})"

def applyPatch (entity : Entity) (patch : List Patch) : Fallible Entity :=
  patch.foldlM applyOne entity

/-- Why what is expected does not hold of the entity that is there. -/
def Expected.failure (current : Option Entity) : Expected → Option ConflictReason
  | .any => none
  | .absent => if current.isSome then some .expectedAbsentButExists else none
  | .entity e =>
    if current.any (fun c => entityEq c e) then none else some .expectedValueMismatch
  | .field name value =>
    if current.any (fun c => optionEq (c.field name) (some value)) then none
    else some .expectedFieldMismatch

end MyLsmDb
