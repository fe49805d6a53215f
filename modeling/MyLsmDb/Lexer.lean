import MyLsmDb.Binary64
import MyLsmDb.Recognizer
import MyLsmDb.Value

/-! The tokens of a query text. The scanner works on the bytes of the text; a byte of a word or
of a string becomes the character with its number. -/
namespace MyLsmDb.Lsmql
open ByteOrder (Bytes)
open Text (Chars)

inductive Tok where
  | kwSelect
  | kwFrom
  | kwWhere
  | kwOrder
  | kwBy
  | kwAsc
  | kwDesc
  | kwLimit
  | kwOffset
  | kwGroup
  | kwExplain
  | kwAnd
  | kwOr
  | kwNot
  | kwIs
  | kwNull
  | kwAbsent
  | kwIn
  | kwCount
  | kwSum
  | kwAvg
  | kwMin
  | kwMax
  | star
  | comma
  | lparen
  | rparen
  | eq
  | ne
  | lt
  | le
  | gt
  | ge
  | ident (name : Chars)
  | param (name : Chars)
  | str (s : Chars)
  | num (bits : UInt64)
  | bool (b : Bool)
  | eof
  deriving DecidableEq

/-- A place in the text, counted from 1. -/
structure Pos where
  line : Nat
  col : Nat
  deriving DecidableEq

structure Token where
  tok : Tok
  pos : Pos
  deriving DecidableEq

instance tokenKinds : Recognizer.Kinds Token Tok where
  kind := Token.tok
  eof := .eof

/-- A piece of a message: a text, or a token in its debug form. -/
inductive Piece where
  | text (s : String)
  | chars (s : Chars)
  | debug (t : Tok)
  deriving DecidableEq

structure ParseError where
  message : List Piece
  line : Nat
  col : Nat
  deriving DecidableEq

abbrev LsmqlResult := Except ParseError

def parseError (message : List Piece) (at_ : Pos) : ParseError := ⟨message, at_.line, at_.col⟩

structure Lexer where
  chars : Bytes
  pos : Pos

namespace Lexer

def peekAt (lx : Lexer) (n : Nat) : UInt8 := lx.chars.getD n 0

def peek (lx : Lexer) : UInt8 := lx.peekAt 0

def advance (pos : Pos) (b : UInt8) : Pos :=
  if b = 10 then ⟨pos.line + 1, 1⟩ else ⟨pos.line, pos.col + 1⟩

def bump (lx : Lexer) : Lexer := ⟨lx.chars.tail, advance lx.pos lx.peek⟩

/-- The bytes up to the first one that `f` refuses, and what is left behind them. -/
def takeWhile (f : UInt8 → Bool) (lx : Lexer) : Bytes × Lexer :=
  let taken := lx.chars.takeWhile f
  (taken, ⟨lx.chars.dropWhile f, taken.foldl advance lx.pos⟩)

def whitespace (b : UInt8) : Bool := b = 32 || b = 9 || b = 13 || b = 10

def skipWs (lx : Lexer) : Lexer := (lx.takeWhile whitespace).2

end Lexer

def asChars (bytes : Bytes) : Chars := bytes.map (fun b => Char.ofNat b.toNat)

def asciiAlphabetic (b : UInt8) : Bool := (65 ≤ b && b ≤ 90) || (97 ≤ b && b ≤ 122)

def asciiDigit (b : UInt8) : Bool := 48 ≤ b && b ≤ 57

def wordByte (b : UInt8) : Bool := asciiAlphabetic b || asciiDigit b || b = 95

def asciiUppercase (b : UInt8) : UInt8 := if 97 ≤ b && b ≤ 122 then b - 32 else b

def keywords : List (Chars × Tok) :=
  [(['S', 'E', 'L', 'E', 'C', 'T'], .kwSelect), (['F', 'R', 'O', 'M'], .kwFrom),
    (['W', 'H', 'E', 'R', 'E'], .kwWhere), (['O', 'R', 'D', 'E', 'R'], .kwOrder),
    (['B', 'Y'], .kwBy), (['A', 'S', 'C'], .kwAsc), (['D', 'E', 'S', 'C'], .kwDesc),
    (['L', 'I', 'M', 'I', 'T'], .kwLimit), (['O', 'F', 'F', 'S', 'E', 'T'], .kwOffset),
    (['G', 'R', 'O', 'U', 'P'], .kwGroup), (['E', 'X', 'P', 'L', 'A', 'I', 'N'], .kwExplain),
    (['A', 'N', 'D'], .kwAnd), (['O', 'R'], .kwOr), (['N', 'O', 'T'], .kwNot),
    (['I', 'S'], .kwIs), (['N', 'U', 'L', 'L'], .kwNull),
    (['A', 'B', 'S', 'E', 'N', 'T'], .kwAbsent), (['I', 'N'], .kwIn),
    (['C', 'O', 'U', 'N', 'T'], .kwCount), (['S', 'U', 'M'], .kwSum), (['A', 'V', 'G'], .kwAvg),
    (['M', 'I', 'N'], .kwMin), (['M', 'A', 'X'], .kwMax), (['T', 'R', 'U', 'E'], .bool true),
    (['F', 'A', 'L', 'S', 'E'], .bool false)]

/-- A word in any case of a keyword is the keyword; another word names something. -/
def kwOrIdent (word : Bytes) : Tok :=
  (keywords.lookup (asChars (word.map asciiUppercase))).getD (.ident (asChars word))

def lexComparison (short long : Tok) (lx : Lexer) : Tok × Lexer :=
  if lx.bump.peek = 61 then (long, lx.bump.bump) else (short, lx.bump)

def lexNotEqual (lx : Lexer) : LsmqlResult (Tok × Lexer) :=
  if lx.bump.peek = 61 then .ok (.ne, lx.bump.bump)
  else .error (parseError [.text "unexpected '!' (expected '!=')"] lx.pos)

def lexString (quote : UInt8) (lx : Lexer) : LsmqlResult (Tok × Lexer) :=
  let s := lx.bump.takeWhile (fun b => b ≠ quote)
  if s.2.chars = [] then .error (parseError [.text "unterminated string literal"] lx.pos)
  else .ok (.str (asChars s.1), s.2.bump)

def lexParam (lx : Lexer) : LsmqlResult (Tok × Lexer) :=
  let name := lx.bump.takeWhile wordByte
  if name.1 = [] then .error (parseError [.text "expected parameter name after '$'"] lx.pos)
  else .ok (.param (asChars name.1), name.2)

/-- The text of a number: an optional minus sign, digits, an optional point and digits. -/
def numberText (lx : Lexer) : Bytes × Lexer :=
  let neg := if lx.peek = 45 then [45] else []
  let start := if lx.peek = 45 then lx.bump else lx
  let int := start.takeWhile asciiDigit
  if int.2.peek = 46 then
    let frac := int.2.bump.takeWhile asciiDigit
    (neg ++ int.1 ++ 46 :: frac.1, frac.2)
  else (neg ++ int.1, int.2)

def lexNumber (lx : Lexer) : LsmqlResult (Tok × Lexer) :=
  let num := numberText lx
  match Binary64.fromStr num.1 with
  | some bits => .ok (.num bits, num.2)
  | none => .error (parseError [.text "invalid number: ", .chars (asChars num.1)] lx.pos)

def lexWord (lx : Lexer) : Tok × Lexer :=
  let word := lx.takeWhile wordByte
  (kwOrIdent word.1, word.2)

def lexToken (c : UInt8) (lx : Lexer) : LsmqlResult (Tok × Lexer) :=
  if c = 42 then .ok (.star, lx.bump)
  else if c = 44 then .ok (.comma, lx.bump)
  else if c = 40 then .ok (.lparen, lx.bump)
  else if c = 41 then .ok (.rparen, lx.bump)
  else if c = 61 then .ok (.eq, lx.bump)
  else if c = 60 then .ok (lexComparison .lt .le lx)
  else if c = 62 then .ok (lexComparison .gt .ge lx)
  else if c = 33 then lexNotEqual lx
  else if c = 34 ∨ c = 39 then lexString c lx
  else if c = 36 then lexParam lx
  else if asciiDigit c ∨ (c = 45 ∧ asciiDigit (lx.peekAt 1)) then lexNumber lx
  else if asciiAlphabetic c ∨ c = 95 then .ok (lexWord lx)
  else .error
    (parseError [.text "unexpected character '", .chars (asChars [c]), .text "'"] lx.pos)

def lexTokens : Nat → Lexer → Option (LsmqlResult (List Token))
  | 0, _ => none
  | fuel + 1, lx =>
    let lx := lx.skipWs
    match lx.chars with
    | [] => some (.ok [⟨.eof, lx.pos⟩])
    | c :: _ =>
      match lexToken c lx with
      | .error e => some (.error e)
      | .ok (tok, rest) =>
        (lexTokens fuel rest).map (fun result => result.map (fun ts => ⟨tok, lx.pos⟩ :: ts))

theorem bumpShorter {lx : Lexer} {c : UInt8} {tail : Bytes} (here : lx.chars = c :: tail) :
    lx.bump.chars.length < lx.chars.length := by
  unfold Lexer.bump
  rw [here]
  exact Nat.lt_succ_self _

theorem bumpNotLonger (lx : Lexer) : lx.bump.chars.length ≤ lx.chars.length := by
  unfold Lexer.bump
  rw [List.length_tail]
  exact Nat.sub_le _ _

theorem takeWhileNotLonger (f : UInt8 → Bool) (lx : Lexer) :
    (lx.takeWhile f).2.chars.length ≤ lx.chars.length :=
  (List.dropWhile_suffix f).length_le

theorem takeWhileShorter {f : UInt8 → Bool} {lx : Lexer} {c : UInt8} {tail : Bytes}
    (here : lx.chars = c :: tail) (taken : f c = true) :
    (lx.takeWhile f).2.chars.length < lx.chars.length := by
  unfold Lexer.takeWhile
  rw [here, List.dropWhile_cons_of_pos taken]
  exact Nat.lt_succ_of_le (List.dropWhile_suffix f).length_le

theorem kwOrIdentSome (word : Bytes) : kwOrIdent word ≠ .eof := by
  unfold kwOrIdent
  cases found : keywords.lookup (asChars (word.map asciiUppercase)) with
  | none => exact Tok.noConfusion
  | some tok =>
    obtain ⟨before, after, split, -⟩ := List.lookup_eq_some_iff.mp found
    have mem : (asChars (word.map asciiUppercase), tok) ∈ keywords := by
      rw [split]
      exact List.mem_append_right _ List.mem_cons_self
    have each : ∀ entry ∈ keywords, entry.2 ≠ Tok.eof := by decide
    exact each _ mem

section Step
variable {c : UInt8} {tail : Bytes} {lx rest : Lexer} {tok : Tok}

theorem comparisonStep {short long : Tok} (here : lx.chars = c :: tail)
    (h : lexComparison short long lx = (tok, rest)) :
    rest.chars.length < lx.chars.length ∧ (tok = short ∨ tok = long) := by
  have one := bumpShorter here
  unfold lexComparison at h
  split at h
  · cases h
    exact ⟨Nat.lt_of_le_of_lt (bumpNotLonger lx.bump) one, .inr rfl⟩
  · cases h
    exact ⟨one, .inl rfl⟩

theorem notEqualStep (here : lx.chars = c :: tail) (h : lexNotEqual lx = .ok (tok, rest)) :
    rest.chars.length < lx.chars.length ∧ tok = .ne := by
  unfold lexNotEqual at h
  split at h
  · cases h
    exact ⟨Nat.lt_of_le_of_lt (bumpNotLonger lx.bump) (bumpShorter here), rfl⟩
  · nomatch h

theorem stringStep {quote : UInt8} (here : lx.chars = c :: tail)
    (h : lexString quote lx = .ok (tok, rest)) :
    rest.chars.length < lx.chars.length ∧ ∃ s, tok = .str s := by
  have inside := takeWhileNotLonger (fun b => decide (b ≠ quote)) lx.bump
  unfold lexString at h
  dsimp only at h
  split at h
  · nomatch h
  · cases h
    constructor
    · exact Nat.lt_of_le_of_lt ((bumpNotLonger _).trans inside) (bumpShorter here)
    · exact ⟨_, rfl⟩

theorem paramStep (here : lx.chars = c :: tail) (h : lexParam lx = .ok (tok, rest)) :
    rest.chars.length < lx.chars.length ∧ ∃ name, tok = .param name := by
  unfold lexParam at h
  dsimp only at h
  split at h
  · nomatch h
  · cases h
    exact ⟨Nat.lt_of_le_of_lt (takeWhileNotLonger wordByte lx.bump) (bumpShorter here), _, rfl⟩

theorem numberTextShorter (here : lx.chars = c :: tail) (some : asciiDigit c = true ∨ c = 45) :
    (numberText lx).2.chars.length < lx.chars.length := by
  have seen : lx.peek = c := by
    unfold Lexer.peek Lexer.peekAt
    rw [here]
    rfl
  have digits : ((if lx.peek = 45 then lx.bump else lx).takeWhile asciiDigit).2.chars.length <
      lx.chars.length := by
    split
    · exact Nat.lt_of_le_of_lt (takeWhileNotLonger _ _) (bumpShorter here)
    · rename_i other
      obtain digit | minus := some
      · exact takeWhileShorter here digit
      · exact absurd (seen.trans minus) other
  unfold numberText
  dsimp only
  generalize (if lx.peek = 45 then lx.bump else lx) = start at digits ⊢
  split
  · exact Nat.lt_of_le_of_lt ((takeWhileNotLonger _ _).trans (bumpNotLonger _)) digits
  · exact digits

theorem numberStep (here : lx.chars = c :: tail) (some : asciiDigit c = true ∨ c = 45)
    (h : lexNumber lx = .ok (tok, rest)) :
    rest.chars.length < lx.chars.length ∧ ∃ bits, tok = .num bits := by
  unfold lexNumber at h
  dsimp only at h
  split at h
  · cases h
    exact ⟨numberTextShorter here some, _, rfl⟩
  · nomatch h

/-- A token takes at least one byte, and only the scan itself ends the list. -/
theorem lexTokenStep (here : lx.chars = c :: tail) (h : lexToken c lx = .ok (tok, rest)) :
    rest.chars.length < lx.chars.length ∧ tok ≠ .eof := by
  have single {sign : Tok} (other : sign ≠ .eof)
      (h : (.ok (sign, lx.bump) : LsmqlResult _) = .ok (tok, rest)) :
      rest.chars.length < lx.chars.length ∧ tok ≠ .eof := by
    cases h
    exact ⟨bumpShorter here, other⟩
  unfold lexToken at h
  obtain ⟨-, h⟩ | ⟨-, h⟩ := ite_eq_iff.mp h
  · exact single Tok.noConfusion h
  obtain ⟨-, h⟩ | ⟨-, h⟩ := ite_eq_iff.mp h
  · exact single Tok.noConfusion h
  obtain ⟨-, h⟩ | ⟨-, h⟩ := ite_eq_iff.mp h
  · exact single Tok.noConfusion h
  obtain ⟨-, h⟩ | ⟨-, h⟩ := ite_eq_iff.mp h
  · exact single Tok.noConfusion h
  obtain ⟨-, h⟩ | ⟨-, h⟩ := ite_eq_iff.mp h
  · exact single Tok.noConfusion h
  obtain ⟨-, h⟩ | ⟨-, h⟩ := ite_eq_iff.mp h
  · obtain ⟨shorter, rfl | rfl⟩ := comparisonStep here (Except.ok.inj h)
    · exact ⟨shorter, Tok.noConfusion⟩
    · exact ⟨shorter, Tok.noConfusion⟩
  obtain ⟨-, h⟩ | ⟨-, h⟩ := ite_eq_iff.mp h
  · obtain ⟨shorter, rfl | rfl⟩ := comparisonStep here (Except.ok.inj h)
    · exact ⟨shorter, Tok.noConfusion⟩
    · exact ⟨shorter, Tok.noConfusion⟩
  obtain ⟨-, h⟩ | ⟨-, h⟩ := ite_eq_iff.mp h
  · obtain ⟨shorter, rfl⟩ := notEqualStep here h
    exact ⟨shorter, Tok.noConfusion⟩
  obtain ⟨-, h⟩ | ⟨-, h⟩ := ite_eq_iff.mp h
  · obtain ⟨shorter, s, rfl⟩ := stringStep here h
    exact ⟨shorter, Tok.noConfusion⟩
  obtain ⟨-, h⟩ | ⟨-, h⟩ := ite_eq_iff.mp h
  · obtain ⟨shorter, name, rfl⟩ := paramStep here h
    exact ⟨shorter, Tok.noConfusion⟩
  obtain ⟨number, h⟩ | ⟨-, h⟩ := ite_eq_iff.mp h
  · obtain ⟨shorter, bits, rfl⟩ := numberStep here (number.imp_right And.left) h
    exact ⟨shorter, Tok.noConfusion⟩
  obtain ⟨word, h⟩ | ⟨-, h⟩ := ite_eq_iff.mp h
  · cases Except.ok.inj h
    have taken : wordByte c = true := by
      unfold wordByte
      obtain letter | underscore := word
      · simp [letter]
      · simp [underscore]
    exact ⟨takeWhileShorter here taken, kwOrIdentSome _⟩
  · nomatch h

end Step

theorem lexTokensEnd (fuel : Nat) (lx : Lexer) (enough : lx.chars.length < fuel) :
    (lexTokens fuel lx).isSome = true := by
  induction fuel generalizing lx with
  | zero => exact absurd enough (Nat.not_lt_zero _)
  | succ fuel ih =>
    have skipped : lx.skipWs.chars.length ≤ lx.chars.length := takeWhileNotLonger _ _
    unfold lexTokens
    dsimp only
    split
    · rfl
    · rename_i c tail here
      split
      · rfl
      · rename_i tok rest found
        have shorter := (lexTokenStep here found).1
        rw [Option.isSome_map]
        exact ih rest (by omega)

theorem lexTokensShape (fuel : Nat) (lx : Lexer) (tokens : List Token)
    (h : lexTokens fuel lx = some (.ok tokens)) :
    ∃ ts, tokens.map Token.tok = ts ++ [.eof] ∧ ∀ t ∈ ts, t ≠ .eof := by
  induction fuel generalizing lx tokens with
  | zero => nomatch h
  | succ fuel ih =>
    unfold lexTokens at h
    dsimp only at h
    split at h
    · cases h
      exact ⟨[], rfl, fun t no => absurd no List.not_mem_nil⟩
    · rename_i c tail here
      split at h
      · nomatch h
      · rename_i tok rest found
        obtain ⟨result, done, mapped⟩ := Option.map_eq_some_iff.mp h
        cases result with
        | error e => nomatch mapped
        | ok later =>
          cases mapped
          obtain ⟨ts, shape, clean⟩ := ih rest later done
          refine ⟨tok :: ts, ?_, ?_⟩
          · rw [List.map_cons, shape]
            rfl
          · intro t mem
            rcases List.mem_cons.mp mem with rfl | mem
            · exact (lexTokenStep here found).2
            · exact clean t mem

def tokenize (src : Utf8) : LsmqlResult (List Token) :=
  (lexTokens (src.bytes.length + 1) ⟨src.bytes, ⟨1, 1⟩⟩).get
    (lexTokensEnd _ _ (Nat.lt_succ_self _))

theorem tokenizeShape {src : Utf8} {tokens : List Token} (h : tokenize src = .ok tokens) :
    ∃ ts, tokens.map Token.tok = ts ++ [.eof] ∧ ∀ t ∈ ts, t ≠ .eof := by
  apply lexTokensShape (src.bytes.length + 1) ⟨src.bytes, ⟨1, 1⟩⟩
  rw [← h]
  exact (Option.some_get _).symm

end MyLsmDb.Lsmql
