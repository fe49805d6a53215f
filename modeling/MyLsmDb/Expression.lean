import MyLsmDb.Entity
import MyLsmDb.OrderedValue

/-! The predicates of queries. A field that is missing behaves like `NULL`:
it only satisfies `!=`. -/
namespace MyLsmDb
open Text

inductive Cmp where
  | eq
  | ne
  | lt
  | lte
  | gt
  | gte
  deriving DecidableEq, Repr

inductive Predicate where
  | and (a b : Predicate)
  | or (a b : Predicate)
  | not (p : Predicate)
  | field (name : Chars) (cmp : Cmp) (value : Value)
  deriving DecidableEq

namespace Predicate

def missingField (cmp : Cmp) : Bool := cmp = .ne

def compare (actual : Value) (cmp : Cmp) (lit : Value) : Bool :=
  let ord := Value.valueCmp actual lit
  match cmp with
  | .eq => ord = .eq
  | .ne => ord ≠ .eq
  | .lt => ord = .lt
  | .lte => ord ≠ .gt
  | .gt => ord = .gt
  | .gte => ord ≠ .lt

def evalInner (entity : Entity) : Predicate → Bool
  | and a b => evalInner entity a && evalInner entity b
  | or a b => evalInner entity a || evalInner entity b
  | not p => !evalInner entity p
  | field name cmp value =>
    match entity.field name with
    | none => missingField cmp
    | some actual => compare actual cmp value

def eval (entity : Entity) (pred : Predicate) : Fallible Bool := pure (evalInner entity pred)

end Predicate
end MyLsmDb
