import MyLsmDb.ParamExact

/-! The literals of a query text: how strings and integers are written, what the scanner makes
of them, and which constants they become. -/
namespace MyLsmDb.Lsmql
open Recognizer
open ByteOrder (Bytes)
open Text (Chars)

/-- How a text in quotes or a decimal integer is written. -/
inductive Written : Bytes → DbValue → Prop
  | string {quote : UInt8} {s : Utf8} : quote = 34 ∨ quote = 39 → quote ∉ s.bytes →
      Written (quote :: (s.bytes ++ [quote])) (.string s)
  | int {minus : Bool} {digits : Bytes} {i : Int64} : digits ≠ [] →
      (∀ b ∈ digits, asciiDigit b = true) →
      i.toInt = (if minus then -(Binary64.digitsValue digits : Int)
        else Binary64.digitsValue digits) →
      Written ((if minus then [45] else []) ++ digits) (.int i)

/-- The literals that become what they say. -/
def Plain : DbValue → Prop
  | .string s => ∀ b ∈ s.bytes, b.toNat < 0x80
  | .int i => KeptInt i
  | _ => False

section Scanning
variable {lx rest : Lexer} {c quote : UInt8} {tail s after : Bytes} {tok : Tok}

theorem bumpTail (here : lx.chars = c :: tail) : lx.bump.chars = tail := by
  unfold Lexer.bump
  rw [here]
  rfl

theorem peekHead (here : lx.chars = c :: tail) : lx.peek = c := by
  unfold Lexer.peek Lexer.peekAt
  rw [here]
  rfl

theorem peekSeen (seen : lx.peek = c) (some : c ≠ 0) : lx.chars = c :: lx.bump.chars := by
  cases here : lx.chars with
  | nil =>
    unfold Lexer.peek Lexer.peekAt at seen
    rw [here] at seen
    exact absurd seen.symm some
  | cons d tail => rw [bumpTail here, ← peekHead here, seen]

theorem stringReads (here : lx.chars = quote :: (s ++ quote :: after)) (free : quote ∉ s) :
    ∃ rest, lexString quote lx = .ok (.str (asChars s), rest) ∧ rest.chars = after := by
  have other : ∀ b ∈ s, decide (b ≠ quote) = true := by
    intro b mem
    refine decide_eq_true ?_
    rintro rfl
    exact free mem
  have taken : (s ++ quote :: after).takeWhile (fun b => decide (b ≠ quote)) = s := by
    rw [List.takeWhile_append_of_pos other, List.takeWhile_cons_of_neg (by simp), List.append_nil]
  have left : (s ++ quote :: after).dropWhile (fun b => decide (b ≠ quote)) = quote :: after := by
    rw [List.dropWhile_append_of_pos other, List.dropWhile_cons_of_neg (by simp)]
  unfold lexString Lexer.takeWhile
  dsimp only
  rw [bumpTail here, taken, left, if_neg (List.cons_ne_nil _ _)]
  exact ⟨_, rfl, rfl⟩

theorem takeWhileSplit (f : UInt8 → Bool) (lx : Lexer) :
    lx.chars = (lx.takeWhile f).1 ++ (lx.takeWhile f).2.chars :=
  List.takeWhile_append_dropWhile.symm

theorem numberConsumed (lx : Lexer) : lx.chars = (numberText lx).1 ++ (numberText lx).2.chars := by
  have start : lx.chars = (if lx.peek = 45 then [45] else []) ++
      (if lx.peek = 45 then lx.bump else lx).chars := by
    split
    · rename_i minus
      exact peekSeen minus (by decide)
    · rfl
  rw [start]
  unfold numberText
  dsimp only
  generalize (if lx.peek = 45 then lx.bump else lx) = first
  have int := takeWhileSplit asciiDigit first
  by_cases point : (first.takeWhile asciiDigit).2.peek = 46
  · rw [if_pos point]
    rw [peekSeen point (by decide),
      takeWhileSplit asciiDigit (first.takeWhile asciiDigit).2.bump] at int
    rw [int]
    simp only [List.append_assoc, List.cons_append]
  · rw [if_neg point, List.append_assoc, ← int]

theorem digitOther (digit : asciiDigit c = true) : c ≠ 45 ∧ c ≠ 46 := by
  constructor
  · rintro rfl
    exact absurd digit (by decide)
  · rintro rfl
    exact absurd digit (by decide)

theorem integerParsed {minus : Bool} {digits : Bytes} (some : digits ≠ [])
    (all : ∀ b ∈ digits, asciiDigit b = true) :
    Binary64.fromStr ((if minus then [45] else []) ++ digits) =
      .some (Binary64.signed minus (Binary64.nearest (Binary64.digitsValue digits) 1)) := by
  have taken : digits.takeWhile Binary64.digit = digits :=
    List.takeWhile_eq_self_iff.mpr all
  have left : digits.dropWhile Binary64.digit = [] := List.dropWhile_eq_nil_iff.mpr all
  cases minus with
  | true =>
    have first : ([45] ++ digits).head? = Option.some 45 := rfl
    unfold Binary64.fromStr
    dsimp only
    rw [if_pos rfl, if_pos first, if_pos first, List.singleton_append, List.tail_cons, taken, left]
    exact if_neg some
  | false =>
    cases digits with
    | nil => exact absurd rfl some
    | cons d digits =>
      have first : ¬ (d :: digits).head? = Option.some 45 :=
        fun same => (digitOther (all d List.mem_cons_self)).1 (Option.some.inj same)
      unfold Binary64.fromStr
      dsimp only
      rw [if_neg Bool.false_ne_true, List.nil_append, if_neg first, if_neg first, taken, left]
      exact if_neg some

theorem integerReads {minus : Bool} {digits : Bytes} (some : digits ≠ [])
    (all : ∀ b ∈ digits, asciiDigit b = true)
    (here : lx.chars = (if minus then [45] else []) ++ digits ++ after)
    (stop : ∀ b ∈ after.head?, asciiDigit b = false ∧ b ≠ 46) :
    ∃ rest, lexNumber lx = .ok (.num
        (Binary64.signed minus (Binary64.nearest (Binary64.digitsValue digits) 1)), rest) ∧
      rest.chars = after := by
  have begin_ : (if lx.peek = 45 then [45] else []) = (if minus then [45] else [] : Bytes) ∧
      (if lx.peek = 45 then lx.bump else lx).chars = digits ++ after := by
    cases minus with
    | true =>
      have minus : lx.peek = 45 := peekHead here
      rw [if_pos minus, if_pos minus]
      exact ⟨rfl, bumpTail here⟩
    | false =>
      have digits_ : lx.peek ≠ 45 := by
        cases digits with
        | nil => exact absurd rfl some
        | cons d digits =>
          rw [peekHead here]
          exact (digitOther (all d List.mem_cons_self)).1
      rw [if_neg digits_, if_neg digits_]
      exact ⟨rfl, here⟩
  obtain ⟨sign, start⟩ := begin_
  have taken : (digits ++ after).takeWhile asciiDigit = digits := by
    rw [List.takeWhile_append_of_pos all]
    cases after with
    | nil => exact List.append_nil _
    | cons b after =>
      rw [List.takeWhile_cons_of_neg (by simp [(stop b rfl).1]), List.append_nil]
  have left : (digits ++ after).dropWhile asciiDigit = after := by
    rw [List.dropWhile_append_of_pos all]
    cases after with
    | nil => rfl
    | cons b after => exact List.dropWhile_cons_of_neg (by simp [(stop b rfl).1])
  have text : (numberText lx).1 = (if minus then [45] else []) ++ digits ∧
      (numberText lx).2.chars = after := by
    unfold numberText
    dsimp only
    rw [sign]
    generalize (if lx.peek = 45 then lx.bump else lx) = first at start
    have ahead_ : (first.takeWhile asciiDigit).2.chars = after := by
      unfold Lexer.takeWhile
      rw [start]
      exact left
    have point : (first.takeWhile asciiDigit).2.peek ≠ 46 := by
      unfold Lexer.peek Lexer.peekAt
      rw [ahead_]
      cases after with
      | nil => exact (by decide : (0 : UInt8) ≠ 46)
      | cons b after => exact (stop b rfl).2
    rw [if_neg point]
    refine ⟨?_, ahead_⟩
    unfold Lexer.takeWhile
    rw [start]
    exact congrArg (_ ++ ·) taken
  unfold lexNumber
  dsimp only
  rw [text.1, integerParsed some all]
  exact ⟨_, rfl, text.2⟩

theorem tokenQuote (h : quote = 34 ∨ quote = 39) (lx : Lexer) :
    lexToken quote lx = lexString quote lx := by
  rcases h with rfl | rfl
  · rfl
  · rfl

theorem tokenNumber (h : c = 45 ∧ asciiDigit (lx.peekAt 1) = true ∨ asciiDigit c = true) :
    lexToken c lx = lexNumber lx := by
  have other (b : UInt8) (no : ¬ (b = 45 ∨ asciiDigit b = true)) : c ≠ b := by
    rintro rfl
    exact no (h.imp_left And.left)
  have quote : ¬ (c = 34 ∨ c = 39) :=
    fun same => same.elim (other 34 (by decide)) (other 39 (by decide))
  unfold lexToken
  rw [if_neg (other 42 (by decide)), if_neg (other 44 (by decide)), if_neg (other 40 (by decide)),
    if_neg (other 41 (by decide)), if_neg (other 61 (by decide)), if_neg (other 60 (by decide)),
    if_neg (other 62 (by decide)), if_neg (other 33 (by decide)), if_neg quote,
    if_neg (other 36 (by decide)), if_pos h.symm]

end Scanning

section Values

theorem fieldPredValues {ks : List Tok} {p : Predicate} (h : FieldPredOf ks p) :
    p.values = ks.filterMap literal := by
  have one {js : List Tok} {v : Value} (h : ValueOf js v) : js.filterMap literal = [v] := by
    cases h <;> rfl
  cases h with
  | compare op value =>
    rename_i f k o ks v
    have sign : literal k = none ∧ (o f v).values = [v] := by
      cases op <;> exact ⟨rfl, rfl⟩
    rw [List.filterMap_cons_none rfl, List.filterMap_cons_none sign.1, one value, sign.2]
  | in_ list =>
    rw [List.filterMap_append, List.filterMap_cons_none rfl, List.filterMap_cons_none rfl,
      List.filterMap_cons_none rfl, List.filterMap_cons_none rfl, List.filterMap_nil,
      List.append_nil]
    unfold Predicate.values
    induction list with
    | last value => exact (one value).symm
    | more value _ ih =>
      rw [List.filterMap_append, one value, List.filterMap_cons_none rfl, ← ih]
      rfl
  | isNull => rfl
  | isNotNull => rfl
  | isAbsent => rfl

def Level.read : Level → List Value
  | .orRest first more => (disjunction first more).values
  | .andRest first more => (conjunction first more).values
  | _ => []

theorem orValues (left right : Expr) : (left.orWith right).values = left.values ++ right.values := by
  cases left with
  | or es =>
    unfold Expr.orWith
    rw [Expr.values, Expr.values, valuesList, valuesList, List.flatMap_append, List.flatMap_singleton]
  | _ => rw [Expr.orWith.eq_def]; simp [Expr.values, valuesOf]

theorem andValues (left right : Expr) : (left.andWith right).values = left.values ++ right.values := by
  cases left with
  | and es =>
    unfold Expr.andWith
    rw [Expr.values, Expr.values, valuesList, valuesList, List.flatMap_append, List.flatMap_singleton]
  | _ => rw [Expr.andWith.eq_def]; simp [Expr.values, valuesOf]

theorem exprValues {level : Level} {ks : List Tok} {e : Expr} (h : ExprOf level ks e) :
    e.values = level.read ++ ks.filterMap literal := by
  induction h with
  | or _ _ ihLeft ihRest =>
    rw [ihRest, List.filterMap_append]
    exact congrArg (· ++ _) ihLeft
  | orEnd => exact (List.append_nil _).symm
  | @orMore first more ks next js _ _ _ ihNext ihRest =>
    rw [ihRest, List.cons_append, List.filterMap_cons_none rfl, List.filterMap_append]
    change (disjunction first (more ++ [next])).values ++ _ = (disjunction first more).values ++ _
    rw [← orWithLast, orValues, ihNext, List.append_assoc]
    rfl
  | and _ _ ihLeft ihRest =>
    rw [ihRest, List.filterMap_append]
    exact congrArg (· ++ _) ihLeft
  | andEnd => exact (List.append_nil _).symm
  | @andMore first more ks next js _ _ _ ihNext ihRest =>
    rw [ihRest, List.cons_append, List.filterMap_cons_none rfl, List.filterMap_append]
    change (conjunction first (more ++ [next])).values ++ _ = (conjunction first more).values ++ _
    rw [← andWithLast, andValues, ihNext, List.append_assoc]
    rfl
  | not _ ih =>
    rw [List.filterMap_cons_none rfl]
    exact ih
  | pred _ ih => exact ih
  | paren _ ih =>
    rw [List.filterMap_append, List.filterMap_cons_none rfl, List.filterMap_cons_none rfl,
      List.filterMap_nil, List.append_nil]
    exact ih
  | field here => exact fieldPredValues here

theorem whereValues {ks : List Tok} {q : Query} {e : Expr} (h : QueryOf accepted ks q)
    (pred : q.predicate = some e) : ∃ front ws later, ks = front ++ .kwWhere :: (ws ++ later) ∧
      .kwWhere ∉ front ∧ e.values = ws.filterMap literal := by
  have items {js : List Tok} {p : Projection} (h : ProjectionOf accepted js p) : .kwWhere ∉ js := by
    cases h with
    | star => exact fun mem => Tok.noConfusion (List.mem_singleton.mp mem)
    | items list =>
      have item {js : List Tok} {i : ProjItem} (h : ItemOf accepted js i) : .kwWhere ∉ js := by
        cases h with
        | field => simp
        | star function _ => cases function <;> simp
        | ofField function _ => cases function <;> simp
      induction list with
      | last here => exact item here
      | more here _ ih =>
        intro mem
        rcases List.mem_append.mp mem with left | right
        · exact item here left
        · rcases List.mem_cons.mp right with sign | right
          · exact Tok.noConfusion sign
          · exact ih right
  cases h with
  | @query xs _ ps _ source _ _ _ _ _ _ explained projected clauses =>
    cases pred
    cases clauses with
    | @present ws _ later _ body _ =>
      refine ⟨xs ++ .kwSelect :: (ps ++ [.kwFrom, .ident source]), ws, later, ?_, ?_, ?_⟩
      · simp only [List.append_assoc, List.cons_append, List.nil_append]
      · have first : .kwWhere ∉ xs := by
          cases explained <;> simp
        simp [first, items projected]
      · cases body with
        | expr here => exact exprValues here

end Values

section Spelling

def spelledFrom : Nat → Lexer → List (Bytes × Tok)
  | 0, _ => []
  | fuel + 1, lx =>
    let lx := lx.skipWs
    match lx.chars with
    | [] => []
    | c :: _ =>
      match lexToken c lx with
      | .error _ => []
      | .ok (tok, rest) =>
        (lx.chars.take (lx.chars.length - rest.chars.length), tok) :: spelledFrom fuel rest

def spelled (src : Utf8) : List (Bytes × Tok) :=
  spelledFrom (src.bytes.length + 1) ⟨src.bytes, ⟨1, 1⟩⟩

def literalOf (t : Bytes × Tok) : Option (Bytes × Value) := (literal t.2).map (fun v => (t.1, v))

/-- The literals behind the first `WHERE`, each with the bytes it is read from. -/
def literals (src : Utf8) : List (Bytes × Value) :=
  ((spelled src).dropWhile (fun t => t.2 ≠ .kwWhere)).filterMap literalOf

theorem spelledKinds (fuel : Nat) (lx : Lexer) (tokens : List Token)
    (h : lexTokens fuel lx = some (.ok tokens)) :
    tokens.map Token.tok = (spelledFrom fuel lx).map Prod.snd ++ [.eof] := by
  induction fuel generalizing lx tokens with
  | zero => cases h
  | succ fuel ih =>
    unfold lexTokens at h
    unfold spelledFrom
    dsimp only at h ⊢
    cases here : lx.skipWs.chars with
    | nil =>
      rw [here] at h
      cases Except.ok.inj (Option.some.inj h)
      rfl
    | cons c tail =>
      rw [here] at h
      dsimp only at h ⊢
      cases found : lexToken c lx.skipWs with
      | error e =>
        rw [found] at h
        cases Option.some.inj h
      | ok pair =>
        rw [found] at h
        obtain ⟨result, later, h⟩ := Option.map_eq_some_iff.mp h
        cases result with
        | error e => cases h
        | ok ts =>
          cases Except.ok.inj h
          rw [List.map_cons, List.map_cons, List.cons_append, ih pair.2 ts later]

theorem spelledToken {fuel : Nat} {lx : Lexer} {t : Bytes × Tok} (mem : t ∈ spelledFrom fuel lx) :
    ∃ (lx rest : Lexer) (c : UInt8) (tail : Bytes), lx.chars = c :: tail ∧
      lexToken c lx = .ok (t.2, rest) ∧
      t.1 = lx.chars.take (lx.chars.length - rest.chars.length) := by
  induction fuel generalizing lx with
  | zero => cases mem
  | succ fuel ih =>
    unfold spelledFrom at mem
    dsimp only at mem
    cases here : lx.skipWs.chars with
    | nil =>
      rw [here] at mem
      cases mem
    | cons c tail =>
      rw [here] at mem
      dsimp only at mem
      cases found : lexToken c lx.skipWs with
      | error e =>
        rw [found] at mem
        cases mem
      | ok pair =>
        rw [found] at mem
        rcases List.mem_cons.mp mem with rfl | later
        · exact ⟨lx.skipWs, pair.2, c, tail, here, found, by rw [here]⟩
        · exact ih later

theorem literalsValues (ts : List (Bytes × Tok)) :
    (ts.filterMap literalOf).map Prod.snd = (ts.map Prod.snd).filterMap literal := by
  rw [List.map_filterMap, List.filterMap_map]
  apply List.filterMap_congr
  intro t _
  unfold literalOf
  rw [Option.map_map]
  exact congrFun Option.map_id (literal t.2)

theorem dropWhere {ts : List (Bytes × Tok)} {front more : List Tok}
    (split : ts.map Prod.snd = front ++ .kwWhere :: more) (none : .kwWhere ∉ front) :
    (ts.dropWhile (fun t => t.2 ≠ .kwWhere)).map Prod.snd = .kwWhere :: more := by
  induction front generalizing ts with
  | nil =>
    cases ts with
    | nil => cases split
    | cons t ts =>
      obtain ⟨sign, rest⟩ := List.cons.inj split
      rw [List.dropWhile_cons_of_neg (by simp [sign]), List.map_cons, sign, rest]
  | cons k front ih =>
    cases ts with
    | nil => cases split
    | cons t ts =>
      obtain ⟨sign, rest⟩ := List.cons.inj split
      have other : t.2 ≠ .kwWhere := by
        rintro same
        exact none (List.mem_cons.mpr (.inl (same.symm.trans sign)))
      rw [List.dropWhile_cons_of_pos (by simp [other])]
      exact ih rest (fun mem => none (List.mem_cons_of_mem _ mem))

theorem syntacticOk {α : Type} {x : LsmqlResult α} {a : α} (run : syntactic x = .ok a) : x = .ok a := by
  cases x with
  | ok b => exact congrArg Except.ok (Except.ok.inj run)
  | error e => cases run

theorem literalsAligned {src : Utf8} {q : Query} {e : Expr} (query : parsed src = .ok q)
    (pred : q.predicate = some e) : ∃ more, (literals src).map Prod.snd = e.values ++ more := by
  obtain ⟨tokens, scanned, read⟩ := bindOk query
  have tokenized := syntacticOk scanned
  have shape := spelledKinds (src.bytes.length + 1) ⟨src.bytes, ⟨1, 1⟩⟩ tokens (by
    rw [← tokenized]
    exact (Option.some_get _).symm)
  obtain ⟨pre, rest, split, reads⟩ := (parseReads shape).mp (syntacticOk read)
  obtain ⟨front, ws, later, rfl, none, values⟩ := whereValues (greedyQuery.sound reads) pred
  rw [List.append_assoc, List.cons_append] at split
  refine ⟨(later ++ rest).filterMap literal, ?_⟩
  unfold literals spelled
  rw [literalsValues, dropWhere split none, List.filterMap_cons_none rfl, List.append_assoc,
    List.filterMap_append, values]

end Spelling

/-- The token that a literal is. -/
inductive Scanned : Bytes → Tok → Prop
  | string {quote : UInt8} {s : Bytes} : quote = 34 ∨ quote = 39 → quote ∉ s →
      Scanned (quote :: (s ++ [quote])) (.str (asChars s))
  | int {minus : Bool} {digits : Bytes} : digits ≠ [] → (∀ b ∈ digits, asciiDigit b = true) →
      Scanned ((if minus then [45] else []) ++ digits)
        (.num (Binary64.signed minus (Binary64.nearest (Binary64.digitsValue digits) 1)))

/-- Digits do not go on behind the text. -/
def Apart (text after : Bytes) : Prop := ∀ a ∈ text.getLast?, ∀ b ∈ after.head?,
  asciiDigit a = true → asciiDigit b = false ∧ b ≠ 46

section Literals
variable {text after : Bytes} {tok : Tok} {lx : Lexer}

theorem signedHead {minus : Bool} {digits : Bytes} (some : digits ≠ [])
    (all : ∀ b ∈ digits, asciiDigit b = true)
    (here : lx.chars = (if minus then [45] else []) ++ digits ++ after) :
    lx.peek = 45 ∧ asciiDigit (lx.peekAt 1) = true ∨ asciiDigit lx.peek = true := by
  cases digits with
  | nil => exact absurd rfl some
  | cons d digits =>
    have digit := all d List.mem_cons_self
    cases minus with
    | true =>
      refine .inl ⟨peekHead here, ?_⟩
      unfold Lexer.peekAt
      rw [here]
      exact digit
    | false =>
      refine .inr ?_
      rw [peekHead here]
      exact digit

theorem scannedReads (h : Scanned text tok) (here : lx.chars = text ++ after)
    (apart : Apart text after) :
    ∃ rest, lexToken lx.peek lx = .ok (tok, rest) ∧ rest.chars = after := by
  cases h with
  | @string quote s sign free =>
    have whole : lx.chars = quote :: (s ++ quote :: after) := by
      rw [here, List.cons_append, List.append_assoc, List.singleton_append]
    rw [peekHead whole, tokenQuote sign]
    exact stringReads whole free
  | @int minus digits some all =>
    have stop : ∀ b ∈ after.head?, asciiDigit b = false ∧ b ≠ 46 := by
      intro b mem
      have last : ((if minus then [45] else []) ++ digits).getLast? =
          Option.some (digits.getLast some) := by
        rw [List.getLast?_append, List.getLast?_eq_some_getLast some]
        rfl
      exact apart _ last b mem (all _ (List.getLast_mem some))
    rw [tokenNumber (signedHead some all here)]
    exact integerReads some all here stop

theorem scannedBack {rest : Lexer} {c : UInt8} {tail : Bytes} {tok' : Tok} (h : Scanned text tok)
    (here : lx.chars = c :: tail) (run : lexToken c lx = .ok (tok', rest))
    (consumed : text = lx.chars.take (lx.chars.length - rest.chars.length)) : tok' = tok := by
  have whole : lx.chars = text ++ lx.chars.drop (lx.chars.length - rest.chars.length) := by
    rw [consumed]
    exact (List.take_append_drop _ _).symm
  have seen := peekHead here
  cases h with
  | @string quote s sign free =>
    have split : lx.chars = quote ::
        (s ++ quote :: lx.chars.drop (lx.chars.length - rest.chars.length)) := by
      conv_lhs => rw [whole]
      rw [List.cons_append, List.append_assoc, List.singleton_append]
    obtain ⟨rest', read, -⟩ := stringReads split free
    rw [← seen, peekHead split, tokenQuote sign, read] at run
    exact (Prod.mk.inj (Except.ok.inj run)).1.symm
  | @int minus digits some all =>
    rw [← seen, tokenNumber (signedHead some all whole)] at run
    have taken := numberConsumed lx
    unfold lexNumber at run
    dsimp only at run
    cases found : Binary64.fromStr (numberText lx).1 with
    | none =>
      rw [found] at run
      cases run
    | some bits =>
      rw [found] at run
      cases Except.ok.inj run
      have same : (if minus then [45] else []) ++ digits = (numberText lx).1 := by
        rw [consumed]
        conv_lhs => rw [taken]
        rw [List.length_append, Nat.add_sub_cancel, List.take_left']
        rfl
      rw [← same, integerParsed some all] at found
      rw [Option.some.inj found]

end Literals

theorem asciiKept {s : Utf8} :
    Utf8.ofChars (asChars s.bytes) = s ↔ ∀ b ∈ s.bytes, b.toNat < 0x80 := by
  constructor
  · intro same
    have bytes : utf8Bytes (asChars s.bytes) = s.bytes := congrArg Utf8.bytes same
    have total := bytesAsChars s.bytes
    unfold asChars at bytes
    rw [bytes] at total
    have none : s.bytes.countP (fun b => 0x80 ≤ b.toNat) = 0 := by omega
    intro b mem
    have low := List.countP_eq_zero.mp none b mem
    simpa using low
  · intro ascii
    obtain ⟨bytes, valid⟩ := s
    unfold Utf8.ofChars
    congr 1
    exact asciiBytes ascii

theorem writtenScanned {text : Bytes} {x : DbValue} (written : Written text x) :
    ∃ tok v c, Scanned text tok ∧ literal tok = some v ∧ (∀ name, v ≠ .param name) ∧
      toDbValue v = .ok c ∧ (c = x ↔ Plain x) := by
  cases written with
  | @string quote s sign free =>
    refine ⟨_, _, _, .string sign free, rfl, fun _ => Value.noConfusion, rfl, ?_⟩
    constructor
    · intro same
      exact asciiKept.mp (MyLsmDb.Value.string.inj same)
    · intro plain
      exact congrArg MyLsmDb.Value.string (asciiKept.mpr plain)
  | @int minus digits i some all same =>
    have value := numberValue
      (Binary64.signed minus (Binary64.nearest (Binary64.digitsValue digits) 1))
    exact ⟨_, _, _, .int some all, rfl, fun _ => Value.noConfusion, value, integerKept same value⟩

theorem substOther {params : Params} {v : Value} (other : ∀ name, v ≠ .param name) :
    substValue params v = .ok v := by
  cases v with
  | param name => exact absurd rfl (other name)
  | _ => rfl

/-- Wherever the text stands, it is read as a literal with the value, and in every query that
is not refused it becomes that constant in its place. -/
def Faithful (text : Bytes) (x : DbValue) : Prop :=
  (∀ (lx : Lexer) (after : Bytes), lx.chars = text ++ after → Apart text after →
    ∃ tok v rest, lexToken lx.peek lx = .ok (tok, rest) ∧ rest.chars = after ∧
      literal tok = some v ∧ toDbValue v = .ok x) ∧
  ∀ schema params src e p, Accepted schema params src e p →
    ∀ j < e.values.length, ((literals src)[j]?).map Prod.fst = some text →
      (constants p)[j]? = some x

/-- A string is kept when it is ASCII, and an integer when a float can hold it and it is not the
least one. -/
theorem literalExactly {text : Bytes} {x : DbValue} (written : Written text x) :
    Faithful text x ↔ Plain x := by
  obtain ⟨tok, v, c, scanned, read, noParam, value, exact_⟩ := writtenScanned written
  constructor
  · intro faithful
    have atEnd : Apart text [] := by
      intro _ _ _ none
      cases none
    obtain ⟨tok', v', rest, run, -, read', value'⟩ := faithful.1 ⟨text, ⟨1, 1⟩⟩ []
      (List.append_nil _).symm atEnd
    obtain ⟨rest', run', -⟩ := @scannedReads text [] tok ⟨text, ⟨1, 1⟩⟩ scanned
      (List.append_nil _).symm atEnd
    cases (Prod.mk.inj (Except.ok.inj (run.symm.trans run'))).1
    cases Option.some.inj (read.symm.trans read')
    exact exact_.mp (Except.ok.inj (value.symm.trans value'))
  · intro plain
    cases exact_.mpr plain
    constructor
    · intro lx after here apart
      obtain ⟨rest, run, left⟩ := scannedReads scanned here apart
      exact ⟨tok, v, rest, run, left, read, value⟩
    · intro schema params src e p accepted j inside there
      obtain ⟨⟨_, w⟩, at_, rfl⟩ := Option.map_eq_some_iff.mp there
      have placed := acceptedValues accepted
      obtain ⟨q, q', b, query, pred, -, -⟩ := accepted
      obtain ⟨more, aligned⟩ := literalsAligned query pred
      have here : e.values[j]? = some w := by
        have both : ((literals src).map Prod.snd)[j]? = some w := by
          rw [List.getElem?_map, at_]
          rfl
        rwa [aligned, List.getElem?_append_left inside] at both
      obtain ⟨t, mem, found⟩ := List.mem_filterMap.mp (List.mem_of_getElem? at_)
      obtain ⟨_, literal_, same⟩ := Option.map_eq_some_iff.mp found
      obtain ⟨rfl, rfl⟩ := Prod.mk.inj same
      obtain ⟨lx, rest, c, tail, chars, run, consumed⟩ :=
        spelledToken ((List.dropWhile_suffix _).mem mem)
      rw [scannedBack scanned chars run consumed, read] at literal_
      cases literal_
      obtain ⟨size, each⟩ := List.forall₂_iff_get.mp placed
      obtain ⟨w, put, become⟩ := each j inside (size ▸ inside)
      have stands : e.values.get ⟨j, inside⟩ = v :=
        Option.some.inj ((List.getElem?_eq_getElem inside).symm.trans here)
      rw [stands, substOther noParam] at put
      cases Except.ok.inj put
      rw [List.getElem?_eq_getElem (size ▸ inside)]
      exact congrArg some (Except.ok.inj (become.symm.trans value))

def itText : Bytes := [39, 105, 116, 39]

def itString : Utf8 := ⟨[105, 116], by decide⟩

/-- `-9007199254740993`, which is no float. -/
def oddText : Bytes := [45, 57, 48, 48, 55, 49, 57, 57, 50, 53, 52, 55, 52, 48, 57, 57, 51]

theorem itWritten : Written itText (.string itString) :=
  @Written.string 39 itString (.inr rfl) (by decide)

theorem oddWritten : Written oddText (.int (-9007199254740993)) := by
  refine @Written.int true oddText.tail (-9007199254740993) (List.cons_ne_nil _ _) ?_ ?_
  · decide +kernel
  · decide +kernel

theorem itPlain : Plain (.string itString) := by
  change ∀ b ∈ itString.bytes, b.toNat < 0x80
  decide +kernel

theorem oddChanged : ¬ Plain (.int (-9007199254740993)) := by
  intro kept
  have float : Binary64.Exact (Int64.toInt (-9007199254740993)).natAbs := kept.2
  have value : (Int64.toInt (-9007199254740993)).natAbs = 9007199254740993 := by decide +kernel
  rw [value] at float
  obtain ⟨m, k, small, odd⟩ := float
  cases k with
  | zero => omega
  | succ k =>
    rw [Nat.pow_succ, ← Nat.mul_assoc] at odd
    omega

theorem literalExactlyRead :
    (Written itText (.string itString) ∧ Plain (.string itString) ∧
      (Faithful itText (.string itString) ↔ Plain (.string itString))) ∧
    Written oddText (.int (-9007199254740993)) ∧ ¬ Plain (.int (-9007199254740993)) ∧
      (Faithful oddText (.int (-9007199254740993)) ↔ Plain (.int (-9007199254740993))) :=
  ⟨⟨itWritten, itPlain, literalExactly itWritten⟩, oddWritten, oddChanged, literalExactly oddWritten⟩

def accent : Utf8 := ⟨[195, 169], by decide⟩

/-- `SELECT * FROM t WHERE f = 'é'` -/
def accentText : Utf8 where
  bytes := [83, 69, 76, 69, 67, 84, 32, 42, 32, 70, 82, 79, 77, 32, 116, 32, 87, 72, 69, 82, 69, 32,
    102, 32, 61, 32, 39, 195, 169, 39]
  valid := by decide

/-- Each of the two bytes is taken for a letter of its own. -/
theorem accentMistaken : Written [39, 195, 169, 39] (.string accent) ∧
    ¬ Faithful [39, 195, 169, 39] (.string accent) := by
  have written : Written (39 :: (accent.bytes ++ [39])) (.string accent) :=
    .string (.inr rfl) (by decide)
  refine ⟨written, fun faithful => ?_⟩
  have query : parsed accentText = .ok ⟨false, .star, ['t'],
      some (.pred (.eq ['f'] (.string ['Ã', '©']))), [], [], none, 0⟩ := rfl
  have run : (planned oneFieldSchema (oneParam .null) accentText).toOption.map
      (fun r => filterOf r.2.plan) =
        some (some (.field ['f'] .eq (.string ⟨[195, 131, 194, 169], by decide⟩))) := by
    decide +kernel
  obtain ⟨q, b, plan, there⟩ := plannedFilter run
  have first : ((literals accentText)[0]?).map Prod.fst = some [39, 195, 169, 39] := by
    decide +kernel
  have kept := faithful.2 _ _ _ _ _ ⟨_, q, b, query, rfl, plan, there⟩ 0 Nat.zero_lt_one first
  exact absurd kept (by decide)

end MyLsmDb.Lsmql
