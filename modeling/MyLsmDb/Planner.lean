import MyLsmDb.Expression

/-! The first step of planning: a predicate as a disjunction of clauses, each a list of
literals. A negated comparison stays a negated literal, because a missing field satisfies
neither a comparison nor the one with the operator turned around. -/
namespace MyLsmDb
open Text

/-- `[not] field cmp value` -/
structure Lit where
  field : Chars
  cmp : Cmp
  value : Value
  negated : Bool
  deriving DecidableEq

namespace Lit

def indexable (lit : Lit) : Bool := !lit.negated && lit.cmp ≠ .ne

def toPredicate (lit : Lit) : Predicate :=
  let p := Predicate.field lit.field lit.cmp lit.value
  if lit.negated then .not p else p

end Lit

def crossed (da db : List (List Lit)) : List (List Lit) :=
  da.flatMap (fun ca => db.map (fun cb => ca ++ cb))

mutual

def dnf : Predicate → List (List Lit)
  | .field f c v => [[⟨f, c, v, false⟩]]
  | .and a b => crossed (dnf a) (dnf b)
  | .or a b => dnf a ++ dnf b
  | .not inner => dnfNot inner

def dnfNot : Predicate → List (List Lit)
  | .field f c v => [[⟨f, c, v, true⟩]]
  | .not inner => dnf inner
  | .and a b => dnfNot a ++ dnfNot b
  | .or a b => crossed (dnfNot a) (dnfNot b)

end

section Meaning
variable (e : Entity)

def Lit.Holds (lit : Lit) : Prop := lit.toPredicate.eval e = .ok true

/-- Some clause has all its literals true. -/
def SomeClause (clauses : List (List Lit)) : Prop := ∃ clause ∈ clauses, ∀ lit ∈ clause, lit.Holds e

variable {e}

theorem evalTrue {p : Predicate} : p.eval e = .ok true ↔ p.evalInner e = true := by
  unfold Predicate.eval
  constructor
  · intro h
    exact Except.ok.inj h
  · intro h
    rw [h]
    rfl

theorem holdsPositive {f : Chars} {c : Cmp} {v : Value} :
    (Lit.mk f c v false).Holds e ↔ (Predicate.field f c v).evalInner e = true := evalTrue

theorem holdsNegated {f : Chars} {c : Cmp} {v : Value} :
    (Lit.mk f c v true).Holds e ↔ (Predicate.field f c v).evalInner e = false := by
  refine evalTrue.trans ?_
  change (!(Predicate.field f c v).evalInner e) = true ↔ _
  simp

theorem someSingle {lit : Lit} : SomeClause e [[lit]] ↔ lit.Holds e := by
  simp [SomeClause]

theorem someAppend {da db : List (List Lit)} :
    SomeClause e (da ++ db) ↔ SomeClause e da ∨ SomeClause e db := by
  constructor
  · intro h
    obtain ⟨clause, mem, all⟩ := h
    rcases List.mem_append.mp mem with left | right
    · exact .inl ⟨clause, left, all⟩
    · exact .inr ⟨clause, right, all⟩
  · intro h
    rcases h with ⟨clause, mem, all⟩ | ⟨clause, mem, all⟩
    · exact ⟨clause, List.mem_append_left _ mem, all⟩
    · exact ⟨clause, List.mem_append_right _ mem, all⟩

theorem someCrossed {da db : List (List Lit)} :
    SomeClause e (crossed da db) ↔ SomeClause e da ∧ SomeClause e db := by
  constructor
  · intro h
    obtain ⟨clause, mem, all⟩ := h
    obtain ⟨ca, ma, inner⟩ := List.mem_flatMap.mp mem
    obtain ⟨cb, mb, rfl⟩ := List.mem_map.mp inner
    constructor
    · exact ⟨ca, ma, fun lit ml => all lit (List.mem_append_left _ ml)⟩
    · exact ⟨cb, mb, fun lit ml => all lit (List.mem_append_right _ ml)⟩
  · intro h
    obtain ⟨⟨ca, ma, left⟩, cb, mb, right⟩ := h
    have mem : ca ++ cb ∈ crossed da db :=
      List.mem_flatMap.mpr ⟨ca, ma, List.mem_map.mpr ⟨cb, mb, rfl⟩⟩
    refine ⟨ca ++ cb, mem, fun lit ml => ?_⟩
    rcases List.mem_append.mp ml with inLeft | inRight
    · exact left lit inLeft
    · exact right lit inRight

/-- Both transformations at once: each goes through the other at a negation. -/
theorem dnfBoth (p : Predicate) :
    (p.evalInner e = true ↔ SomeClause e (dnf p)) ∧
      (p.evalInner e = false ↔ SomeClause e (dnfNot p)) := by
  induction p with
  | field f c v =>
    constructor
    · rw [dnf, someSingle, holdsPositive]
    · rw [dnfNot, someSingle, holdsNegated]
  | not inner ih =>
    have negation : (Predicate.not inner).evalInner e = !inner.evalInner e := rfl
    constructor
    · rw [negation, dnf, ← ih.2]
      simp
    · rw [negation, dnfNot, ← ih.1]
      simp
  | and a b iha ihb =>
    have both : (Predicate.and a b).evalInner e = (a.evalInner e && b.evalInner e) := rfl
    constructor
    · rw [both, dnf, someCrossed, ← iha.1, ← ihb.1]
      simp
    · rw [both, dnfNot, someAppend, ← iha.2, ← ihb.2, Bool.and_eq_false_iff]
  | or a b iha ihb =>
    have either : (Predicate.or a b).evalInner e = (a.evalInner e || b.evalInner e) := rfl
    constructor
    · rw [either, dnf, someAppend, ← iha.1, ← ihb.1]
      simp
    · rw [either, dnfNot, someCrossed, ← iha.2, ← ihb.2]
      simp

end Meaning

/-- The clauses mean what the predicate means. -/
theorem dnfPreserves (p : Predicate) (e : Entity) :
    p.eval e = .ok true ↔ ∃ clause ∈ dnf p, ∀ lit ∈ clause, lit.toPredicate.eval e = .ok true :=
  evalTrue.trans (dnfBoth p).1

end MyLsmDb
