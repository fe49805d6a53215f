import MyLsmDb.Acceptance

/-! When the parser conforms to the documented grammar: nothing is left behind a query, every
aggregate stands over what the grammar allows, and every count fits. -/
namespace MyLsmDb.Lsmql
open Recognizer
open Text (Chars)

theorem clauseMap {α β : Type} {kw : Tok} {body body' : Language Tok α} {absence a a' : α}
    {rest rest' : Language Tok β} {ks : List Tok} {b b' : β}
    (h : Clause kw body absence rest ks (a, b)) (part : ∀ ks, body ks a → body' ks a')
    (none : a = absence → a' = absence) (tail : ∀ js, rest js b → rest' js b') :
    Clause kw body' absence rest' ks (a', b') := by
  cases h with
  | absent later =>
    rw [none rfl]
    exact .absent (tail _ later)
  | present here later => exact .present (part _ here) (tail _ later)

namespace Query

def counts (q : Query) (f : Nat → Nat) : Query :=
  { q with limit := q.limit.map f, offset := f q.offset }

theorem countsSame (q : Query) : q.counts id = q := by
  unfold counts
  rw [Option.map_id]
  rfl

end Query

section Readings
variable {r r' : Reading} {ts : List Tok} {q : Query}

theorem projectionMap {ks : List Tok} {p : Projection}
    (aggregate : ∀ kind field, r.aggregate kind field → r'.aggregate kind field)
    (h : ProjectionOf r ks p) : ProjectionOf r' ks p := by
  cases h with
  | star => exact .star
  | items items =>
    refine .items ?_
    have each : ∀ {ks i}, ItemOf r ks i → ItemOf r' ks i := by
      intro ks i item
      cases item with
      | field => exact .field
      | star function allowed => exact .star function (aggregate _ _ allowed)
      | ofField function allowed => exact .ofField function (aggregate _ _ allowed)
    induction items with
    | last item => exact .last (each item)
    | more item _ ih => exact .more (each item) ih

theorem queryMap {f : Nat → Nat} (h : QueryOf r ts q) (zero : f 0 = 0)
    (aggregate : ∀ kind field, r.aggregate kind field → r'.aggregate kind field)
    (limit : ∀ n k, q.limit = some k → r.count n k → r'.count n (f k))
    (offset : ∀ n, r.count n q.offset → r'.count n (f q.offset)) :
    QueryOf r' ts (q.counts f) := by
  cases h with
  | query explained projected clauses =>
    refine .query explained (projectionMap aggregate projected) ?_
    refine clauseMap clauses (fun _ => id) id (fun _ later => ?_)
    refine clauseMap later (fun _ => id) id (fun _ later => ?_)
    refine clauseMap later (fun _ => id) id (fun _ later => ?_)
    refine clauseMap later (fun _ part => ?_) (fun none => ?_) (fun _ later => ?_)
    · cases part with
      | int counted => exact .int (limit _ _ rfl counted)
    · rw [none]
      rfl
    · refine clauseMap later (fun _ part => ?_) (fun none => ?_) (fun _ => id)
      · cases part with
        | int counted => exact .int (offset _ counted)
      · rw [none, zero]

theorem queryCounts (h : QueryOf r ts q) :
    (∀ k, q.limit = some k → ∃ n, r.count n k) ∧ (q.offset = 0 ∨ ∃ n, r.count n q.offset) := by
  have offsetCount {ks : List Tok} {v : Nat × Unit} (h : OffsetPart r ks v) :
      v.1 = 0 ∨ ∃ n, r.count n v.1 := by
    cases h with
    | absent _ => exact .inl rfl
    | present here _ =>
      cases here with
      | int counted => exact .inr ⟨_, counted⟩
  have limitCount {ks : List Tok} {v : Option Nat × Nat × Unit} (h : LimitPart r ks v) :
      (∀ k, v.1 = some k → ∃ n, r.count n k) ∧ (v.2.1 = 0 ∨ ∃ n, r.count n v.2.1) := by
    cases h with
    | absent later => exact ⟨fun _ no => (Option.some_ne_none _ no.symm).elim, offsetCount later⟩
    | present here later =>
      refine ⟨?_, offsetCount later⟩
      intro k same
      cases here with
      | int counted =>
        cases same
        exact ⟨_, counted⟩
  have skip {α β : Type} {kw : Tok} {body : Language Tok α} {absence : α} {rest : Language Tok β}
      {ks : List Tok} {v : α × β} (h : Clause kw body absence rest ks v) : ∃ js, rest js v.2 := by
    cases h with
    | absent later => exact ⟨_, later⟩
    | present _ later => exact ⟨_, later⟩
  cases h with
  | query _ _ clauses =>
    obtain ⟨_, order⟩ := skip clauses
    obtain ⟨_, group⟩ := skip order
    obtain ⟨_, limit⟩ := skip group
    exact limitCount limit

end Readings

theorem representableDocumented {ts : List Tok} {q : Query} (h : QueryOf representable ts q) :
    QueryOf documented ts q := by
  have read : QueryOf documented ts (q.counts id) := queryMap h rfl (fun _ _ => id)
    (fun _ _ _ counted => counted.1) (fun _ counted => counted.1)
  rwa [q.countsSame] at read

theorem representableAccepted {ts : List Tok} {q : Query} (h : QueryOf representable ts q) :
    QueryOf accepted ts q := by
  have fits {n k : Nat} (small : k < 2 ^ 64) (same : k = n) : k = min n (2 ^ 64 - 1) := by omega
  have counted {n : UInt64} {k : Nat} (read : representable.count n k) : accepted.count n k := by
    obtain ⟨⟨whole, up, same⟩, small⟩ := read
    refine ⟨whole, up, ?_⟩
    rw [Binary64.toUsizeTrunc whole up]
    exact fits small same
  have read : QueryOf accepted ts (q.counts id) := queryMap h rfl
    (fun _ _ _ => trivial) (fun _ _ _ => counted) (fun _ => counted)
  rwa [q.countsSame] at read

theorem documentedAccepted {ts : List Tok} {q : Query} (h : QueryOf documented ts q) :
    QueryOf accepted ts (q.counts fun n => min n (2 ^ 64 - 1)) := by
  have counted {n : UInt64} {k : Nat} (read : documented.count n k) :
      accepted.count n (min k (2 ^ 64 - 1)) := by
    obtain ⟨whole, up, rfl⟩ := read
    exact ⟨whole, up, (Binary64.toUsizeTrunc whole up).symm⟩
  exact queryMap h rfl (fun _ _ _ => trivial) (fun _ _ _ => counted) (fun _ => counted)

theorem acceptedSmall {ts : List Tok} {q : Query} (h : QueryOf accepted ts q) :
    (∀ k, q.limit = some k → k < 2 ^ 64) ∧ q.offset < 2 ^ 64 := by
  have small {n : UInt64} {k : Nat} (read : accepted.count n k) : k < 2 ^ 64 := by
    obtain ⟨whole, up, same⟩ := read
    rw [Binary64.toUsizeTrunc whole up] at same
    omega
  obtain ⟨limit, offset⟩ := queryCounts h
  constructor
  · intro k found
    obtain ⟨n, read⟩ := limit k found
    exact small read
  · obtain zero | ⟨n, read⟩ := offset
    · omega
    · exact small read

theorem smallRepresentable {ts : List Tok} {q : Query} (h : QueryOf documented ts q)
    (small : (∀ k, q.limit = some k → k < 2 ^ 64) ∧ q.offset < 2 ^ 64) :
    QueryOf representable ts q := by
  have read : QueryOf representable ts (q.counts id) := queryMap h rfl (fun _ _ => id)
    (fun _ k found counted => ⟨counted, small.1 k found⟩) (fun _ counted => ⟨counted, small.2⟩)
  rwa [q.countsSame] at read

theorem cutOther {ts : List Tok} {q q' : Query} (h : QueryOf documented ts q')
    (same : q.counts (fun n => min n (2 ^ 64 - 1)) = q') : q = q' := by
  have other {n : UInt64} {k : Nat} (read : documented.count n k) : k ≠ 2 ^ 64 - 1 := by
    obtain ⟨whole, -, rfl⟩ := read
    exact Binary64.truncOther whole
  have uncut {k : Nat} (h : min k (2 ^ 64 - 1) ≠ 2 ^ 64 - 1) : min k (2 ^ 64 - 1) = k := by omega
  obtain ⟨limit, offset⟩ := queryCounts h
  subst same
  have keptOffset : min q.offset (2 ^ 64 - 1) = q.offset := by
    apply uncut
    obtain zero | ⟨n, read⟩ := offset
    · have : min q.offset (2 ^ 64 - 1) = 0 := zero
      omega
    · exact other read
  have keptLimit : q.limit.map (fun n => min n (2 ^ 64 - 1)) = q.limit := by
    cases found : q.limit with
    | none => rfl
    | some k =>
      have there : (q.counts fun n => min n (2 ^ 64 - 1)).limit = some (min k (2 ^ 64 - 1)) := by
        unfold Query.counts
        rw [found]
        rfl
      obtain ⟨n, read⟩ := limit _ there
      exact congrArg some (uncut (other read))
  unfold Query.counts
  dsimp only
  rw [keptLimit, keptOffset]

/-- Every query that the tokens start with can go on with the token behind it. -/
def NothingLeft (ts : List Tok) : Prop := ∀ pre t rest, ts = pre ++ t :: rest →
  (∃ q, QueryOf accepted pre q) → ∃ more q, QueryOf accepted (pre ++ t :: more) q

/-- If the tokens are a query with a star or a field in any aggregate and with any counts,
they are one with aggregates of the grammar and counts of 64 bits. -/
def Proper (ts : List Tok) : Prop :=
  (∃ q, QueryOf accepted ts q) → ∃ q, QueryOf representable ts q

theorem wholeReads {ts : List Tok} {q : Query} (h : QueryOf accepted ts q) :
    QueryBefore .eof ts q := by
  obtain here | ⟨no, -⟩ := greedyQuery.longest .eof h
  · exact here
  · exact absurd rfl no

theorem viableGoesOn {pre more : List Tok} {t : Tok} {q q' : Query}
    (stops : QueryBefore t pre q) (viable : QueryOf accepted (pre ++ t :: more) q') : False := by
  have same : pre ++ t :: more = (pre ++ t :: more) ++ [] := (List.append_nil _).symm
  exact List.cons_ne_nil _ _ (readsOnce same stops (wholeReads viable)).1

section Conformance
variable {tokens : List Token} {ts : List Tok}

theorem parsesWhole (shape : tokens.map Token.tok = ts ++ [.eof]) {q : Query}
    (h : QueryOf accepted ts q) : parse tokens = .ok q :=
  (parseReads shape).mpr ⟨ts, [], (List.append_nil ts).symm, wholeReads h⟩

theorem parseConforms (shape : tokens.map Token.tok = ts ++ [.eof]) :
    (∀ q, parse tokens = .ok q ↔ QueryOf documented ts q) ↔ NothingLeft ts ∧ Proper ts := by
  constructor
  · intro exact_
    constructor
    · intro pre t rest split query
      obtain ⟨q, query⟩ := query
      obtain stops | ⟨-, viable⟩ := greedyQuery.longest t query
      · have parsed : parse tokens = .ok q := (parseReads shape).mpr ⟨pre, t :: rest, split, stops⟩
        have whole := documentedAccepted ((exact_ q).mp parsed)
        rw [split] at whole
        exact (viableGoesOn stops whole).elim
      · exact viable
    · intro query
      obtain ⟨q, query⟩ := query
      have derived := (exact_ q).mp (parsesWhole shape query)
      exact ⟨q, smallRepresentable derived (acceptedSmall query)⟩
  · intro condition
    obtain ⟨nothing, proper⟩ := condition
    intro q
    constructor
    · intro parsed
      obtain ⟨pre, rest, split, reads⟩ := (parseReads shape).mp parsed
      cases rest with
      | cons t rest =>
        obtain ⟨more, q', viable⟩ := nothing pre t rest split ⟨q, greedyQuery.sound reads⟩
        exact (viableGoesOn reads viable).elim
      | nil =>
        rw [List.append_nil] at split
        subst split
        obtain ⟨q', derived⟩ := proper ⟨q, greedyQuery.sound reads⟩
        have again := parsesWhole shape (representableAccepted derived)
        rw [Except.ok.inj (parsed.symm.trans again)]
        exact representableDocumented derived
    · intro derived
      have whole := documentedAccepted derived
      obtain ⟨q', strict⟩ := proper ⟨_, whole⟩
      have parsed := parsesWhole shape (representableAccepted strict)
      have same := Except.ok.inj ((parsesWhole shape whole).symm.trans parsed)
      rw [cutOther (representableDocumented strict) same]
      exact parsed

end Conformance

def upToEof (tokens : List Token) : List Tok := (tokens.map Token.tok).dropLast

theorem upToEofShape {src : Utf8} {tokens : List Token} (h : tokenize src = .ok tokens) :
    tokens.map Token.tok = upToEof tokens ++ [.eof] := by
  obtain ⟨ts, shape, -⟩ := tokenizeShape h
  unfold upToEof
  rw [shape, List.dropLast_concat]

/-- The parser accepts exactly what the documented grammar derives, with the tree that the
derivation denotes, where nothing is left behind a query and the query is a proper one. -/
theorem parserConforms {src : Utf8} {tokens : List Token} (h : tokenize src = .ok tokens) :
    (∀ q, parse tokens = .ok q ↔ QueryOf documented (upToEof tokens) q) ↔
      NothingLeft (upToEof tokens) ∧ Proper (upToEof tokens) :=
  parseConforms (upToEofShape h)

def leftoverText : Utf8 where
  bytes := [83, 69, 76, 69, 67, 84, 32, 42, 32, 70, 82, 79, 77, 32, 116, 32, 117]
  valid := by decide

def leftoverTokens : List Token :=
  [⟨.kwSelect, ⟨1, 1⟩⟩, ⟨.star, ⟨1, 8⟩⟩, ⟨.kwFrom, ⟨1, 10⟩⟩, ⟨.ident ['t'], ⟨1, 15⟩⟩,
    ⟨.ident ['u'], ⟨1, 17⟩⟩, ⟨.eof, ⟨1, 18⟩⟩]

theorem leftoverScanned : tokenize leftoverText = .ok leftoverTokens := rfl

theorem leftoverWitness : tokenize leftoverText = .ok leftoverTokens ∧
    ((∀ q, parse leftoverTokens = .ok q ↔ QueryOf documented (upToEof leftoverTokens) q) ↔
      NothingLeft (upToEof leftoverTokens) ∧ Proper (upToEof leftoverTokens)) :=
  ⟨leftoverScanned, parserConforms leftoverScanned⟩

/-- The word behind the query is not seen, and the text is no query. -/
theorem leftoverIgnored : ∃ tokens, tokenize leftoverText = .ok tokens ∧
    ¬ ∀ q, parse tokens = .ok q ↔ QueryOf documented (upToEof tokens) q := by
  refine ⟨leftoverTokens, leftoverScanned, ?_⟩
  intro exact_
  have stops : QueryBefore (.ident ['u']) [.kwSelect, .star, .kwFrom, .ident ['t']]
      (completed false .star ['t'] (none, [], [], none, 0, ())) := by
    apply QueryBefore.query .absent .star
    refine .absent (.absent (.absent (.absent (.absent rfl ?_) ?_) ?_) ?_) ?_
    all_goals exact Tok.noConfusion
  have shape := upToEofShape leftoverScanned
  have parsed := (parseReads shape).mpr ⟨_, [.ident ['u']], rfl, stops⟩
  exact viableGoesOn stops (documentedAccepted ((exact_ _).mp parsed))

end MyLsmDb.Lsmql
