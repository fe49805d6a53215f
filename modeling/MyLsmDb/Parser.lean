import MyLsmDb.Lexer

/-! The parser of queries: a recursive descent from tokens to the syntax tree. -/
namespace MyLsmDb.Lsmql
open Recognizer
open Text (Chars)

inductive AggKind where
  | count
  | sum
  | avg
  | min
  | max
  deriving DecidableEq

inductive SortDir where
  | asc
  | desc
  deriving DecidableEq

structure OrderItem where
  field : Chars
  dir : SortDir
  deriving DecidableEq

/-- `COUNT(*)` is an aggregate without a field. -/
inductive ProjItem where
  | field (name : Chars)
  | agg (kind : AggKind) (field : Option Chars)
  deriving DecidableEq

inductive Projection where
  | star
  | items (items : List ProjItem)
  deriving DecidableEq

inductive Value where
  | string (s : Chars)
  | number (bits : UInt64)
  | bool (b : Bool)
  | null
  | param (name : Chars)
  deriving DecidableEq

inductive Predicate where
  | eq (field : Chars) (value : Value)
  | ne (field : Chars) (value : Value)
  | lt (field : Chars) (value : Value)
  | le (field : Chars) (value : Value)
  | gt (field : Chars) (value : Value)
  | ge (field : Chars) (value : Value)
  | in_ (field : Chars) (values : List Value)
  | isNull (field : Chars)
  | isAbsent (field : Chars)
  deriving DecidableEq

inductive Expr where
  | and (es : List Expr)
  | or (es : List Expr)
  | not (e : Expr)
  | pred (p : Predicate)

structure Query where
  explain : Bool
  projection : Projection
  source : Chars
  predicate : Option Expr
  groupBy : List Chars
  orderBy : List OrderItem
  limit : Option Nat
  offset : Nat

abbrev Parse := Parser Token ParseError

def posOf : List Token → Pos
  | [] => ⟨0, 0⟩
  | t :: _ => t.pos

def failWith {α : Type} (message : List Piece) : Parse α :=
  fail (fun ts => parseError message (posOf ts))

def expect (want : Tok) : Parse Unit := do
  let found ← peek
  if found = want then
    let _ ← bump
    pure ()
  else failWith [.text "expected ", .debug want, .text ", found ", .debug found]

def expectIdent : Parse Chars := do
  let t ← bump
  match t with
  | .ident s => pure s
  | other => failWith [.text "expected identifier, found ", .debug other]

def parseUsize : Parse Nat := do
  let t ← bump
  match t with
  | .num n =>
    if Binary64.whole n && Binary64.nonnegative n then pure (Binary64.toUsize n)
    else failWith [.text "expected non-negative integer, found ", .debug (.num n)]
  | other => failWith [.text "expected non-negative integer, found ", .debug other]

def aggKind : Tok → Option AggKind
  | .kwCount => some .count
  | .kwSum => some .sum
  | .kwAvg => some .avg
  | .kwMin => some .min
  | .kwMax => some .max
  | _ => none

def parseAggKind : Parse AggKind := do
  let t ← bump
  match aggKind t with
  | some kind => pure kind
  | none => failWith [.text "expected aggregate function, found ", .debug t]

/-- What stands between the parentheses of an aggregate. -/
def parseAggField : Parse (Option Chars) := do
  let t ← peek
  if t = .star then
    let _ ← bump
    pure none
  else
    let field ← expectIdent
    pure (some field)

def parseProjItem : Parse ProjItem := do
  let t ← peek
  if (aggKind t).isSome then
    let kind ← parseAggKind
    expect .lparen
    let field ← parseAggField
    expect .rparen
    pure (.agg kind field)
  else
    let field ← expectIdent
    pure (.field field)

def parseProjection : Parse Projection := do
  let t ← peek
  if t = .star then
    let _ ← bump
    pure .star
  else
    let items ← separatedList .comma parseProjItem
    pure (.items items)

def sortDir : Tok → Option SortDir
  | .kwAsc => some .asc
  | .kwDesc => some .desc
  | _ => none

def parseSortDir : Parse SortDir := do
  let t ← peek
  match sortDir t with
  | some dir =>
    let _ ← bump
    pure dir
  | none => pure .asc

def parseOrderItem : Parse OrderItem := do
  let field ← expectIdent
  let dir ← parseSortDir
  pure ⟨field, dir⟩

def literal : Tok → Option Value
  | .str s => some (.string s)
  | .num n => some (.number n)
  | .bool b => some (.bool b)
  | .param p => some (.param p)
  | .kwNull => some .null
  | _ => none

def parseValue : Parse Value := do
  let t ← bump
  match literal t with
  | some v => pure v
  | none => failWith [.text "expected value, found ", .debug t]

def comparison : Tok → Option (Chars → Value → Predicate)
  | .eq => some .eq
  | .ne => some .ne
  | .lt => some .lt
  | .le => some .le
  | .gt => some .gt
  | .ge => some .ge
  | _ => none

def parseIs (field : Chars) : Parse Expr := do
  let t ← bump
  if t = .kwNot then
    expect .kwNull
    pure (.pred (.ne field .null))
  else
    match t with
    | .kwNull => pure (.pred (.isNull field))
    | .kwAbsent => pure (.pred (.isAbsent field))
    | other => failWith [.text "expected NULL/ABSENT after IS, found ", .debug other]

def parseIn (field : Chars) : Parse Expr := do
  expect .lparen
  let vals ← separatedList .comma parseValue
  expect .rparen
  pure (.pred (.in_ field vals))

def parseComparison (field : Chars) : Parse Expr := do
  let t ← bump
  match comparison t with
  | some cmp =>
    let v ← parseValue
    pure (.pred (cmp field v))
  | none => failWith [.text "expected comparison operator, found ", .debug t]

def parseFieldPred : Parse Expr := do
  let field ← expectIdent
  let t ← peek
  if t = .kwIs then
    let _ ← bump
    parseIs field
  else if t = .kwIn then
    let _ ← bump
    parseIn field
  else parseComparison field

namespace Expr

/-- A chain goes on; what is not one starts one. -/
def orWith (left right : Expr) : Expr :=
  match left with
  | or es => or (es ++ [right])
  | other => or [other, right]

def andWith (left right : Expr) : Expr :=
  match left with
  | and es => and (es ++ [right])
  | other => and [other, right]

end Expr

mutual

def parseOr : Nat → Parse Expr
  | 0 => stuck
  | fuel + 1 => do
    let left ← parseAnd fuel
    orLoop fuel left

def orLoop : Nat → Expr → Parse Expr
  | 0, _ => stuck
  | fuel + 1, left => do
    let t ← peek
    if t = .kwOr then
      let _ ← bump
      let right ← parseAnd fuel
      orLoop fuel (left.orWith right)
    else pure left

def parseAnd : Nat → Parse Expr
  | 0 => stuck
  | fuel + 1 => do
    let left ← parseNot fuel
    andLoop fuel left

def andLoop : Nat → Expr → Parse Expr
  | 0, _ => stuck
  | fuel + 1, left => do
    let t ← peek
    if t = .kwAnd then
      let _ ← bump
      let right ← parseNot fuel
      andLoop fuel (left.andWith right)
    else pure left

def parseNot : Nat → Parse Expr
  | 0 => stuck
  | fuel + 1 => do
    let t ← peek
    if t = .kwNot then
      let _ ← bump
      let inner ← parseNot fuel
      pure (.not inner)
    else parsePredExpr fuel

def parsePredExpr : Nat → Parse Expr
  | 0 => stuck
  | fuel + 1 => do
    let t ← peek
    if t = .lparen then
      let _ ← bump
      let e ← parseOr fuel
      expect .rparen
      pure e
    else parseFieldPred

end

/- Four levels at most lie between two tokens. -/
def parseExpr : Parse Expr := fun ts => parseOr (4 * ts.length + 4) ts

def parseExplain : Parse Bool := do
  let t ← peek
  if t = .kwExplain then
    let _ ← bump
    pure true
  else pure false

def parseQuery : Parse Query := do
  let explain ← parseExplain
  expect .kwSelect
  let projection ← parseProjection
  expect .kwFrom
  let source ← expectIdent
  let predicate ← clause .kwWhere (do let e ← parseExpr; pure (some e)) none
  let orderBy ← clause .kwOrder (do expect .kwBy; separatedList .comma parseOrderItem) []
  let groupBy ← clause .kwGroup (do expect .kwBy; separatedList .comma expectIdent) []
  let limit ← clause .kwLimit (do let n ← parseUsize; pure (some n)) none
  let offset ← clause .kwOffset parseUsize 0
  pure ⟨explain, projection, source, predicate, groupBy, orderBy, limit, offset⟩

end MyLsmDb.Lsmql
