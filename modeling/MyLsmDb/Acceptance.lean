import MyLsmDb.ParserExact

/-! Which texts are queries: the parser reads the longest query it can, and it stops there even
when tokens are left. -/
namespace MyLsmDb.Lsmql
open Recognizer
open Text (Chars)

section Longest

theorem someNot : ExprOf .not [.ident [], .eq, .kwNull] (.pred (.eq [] .null)) :=
  .pred (.field (.compare .eq .null))

theorem someAnd : ExprOf .and [.ident [], .eq, .kwNull] (.pred (.eq [] .null)) :=
  .and someNot .andEnd

theorem orRestGrows {level : Level} {ks : List Tok} {e : Expr} (h : ExprOf level ks e)
    {us : List Tok} {right : Expr} (more : ExprOf .and us right)
    (chain : ∃ first before, level = .orRest first before) :
    ∃ e', ExprOf level (ks ++ .kwOr :: us) e' := by
  induction h with
  | @orEnd first before =>
    have grown : ExprOf (.orRest first before) (.kwOr :: us ++ [])
        (disjunction first (before ++ [right])) := .orMore more .orEnd
    rw [List.append_nil] at grown
    exact ⟨_, grown⟩
  | orMore item _ _ ih =>
    obtain ⟨e', grown⟩ := ih ⟨_, _, rfl⟩
    refine ⟨e', ?_⟩
    rw [List.append_assoc]
    exact .orMore item grown
  | _ =>
    obtain ⟨_, _, no⟩ := chain
    nomatch no

theorem andRestGrows {level : Level} {ks : List Tok} {e : Expr} (h : ExprOf level ks e)
    {us : List Tok} {right : Expr} (more : ExprOf .not us right)
    (chain : ∃ first before, level = .andRest first before) :
    ∃ e', ExprOf level (ks ++ .kwAnd :: us) e' := by
  induction h with
  | @andEnd first before =>
    have grown : ExprOf (.andRest first before) (.kwAnd :: us ++ [])
        (conjunction first (before ++ [right])) := .andMore more .andEnd
    rw [List.append_nil] at grown
    exact ⟨_, grown⟩
  | andMore item _ _ ih =>
    obtain ⟨e', grown⟩ := ih ⟨_, _, rfl⟩
    refine ⟨e', ?_⟩
    rw [List.append_assoc]
    exact .andMore item grown
  | _ =>
    obtain ⟨_, _, no⟩ := chain
    nomatch no

theorem andGrows {ks us : List Tok} {e right : Expr} (h : ExprOf .and ks e)
    (more : ExprOf .not us right) : ∃ e', ExprOf .and (ks ++ .kwAnd :: us) e' := by
  cases h with
  | and first rest =>
    obtain ⟨e', grown⟩ := andRestGrows rest more ⟨_, _, rfl⟩
    refine ⟨e', ?_⟩
    rw [List.append_assoc]
    exact .and first grown

theorem orGrows {ks us : List Tok} {e right : Expr} (h : ExprOf .or ks e)
    (more : ExprOf .and us right) : ∃ e', ExprOf .or (ks ++ .kwOr :: us) e' := by
  cases h with
  | or first rest =>
    obtain ⟨e', grown⟩ := orRestGrows rest more ⟨_, _, rfl⟩
    refine ⟨e', ?_⟩
    rw [List.append_assoc]
    exact .or first grown

/-- An `AND` behind a chain of `OR` belongs to its last operand. -/
theorem orRestGrowsAnd {level : Level} {ks : List Tok} {e : Expr} (h : ExprOf level ks e)
    {us : List Tok} {right : Expr} (more : ExprOf .not us right)
    (chain : ∃ first before, level = .orRest first before) (some : ks ≠ []) :
    ∃ e', ExprOf level (ks ++ .kwAnd :: us) e' := by
  induction h with
  | orEnd => exact absurd rfl some
  | @orMore first before ks item js e last rest _ ih =>
    cases js with
    | nil =>
      obtain ⟨wider, grown⟩ := andGrows last more
      have whole : ExprOf (.orRest first before) (.kwOr :: (ks ++ .kwAnd :: us) ++ [])
          (disjunction first (before ++ [wider])) := .orMore grown .orEnd
      refine ⟨disjunction first (before ++ [wider]), ?_⟩
      simp only [List.append_nil, List.cons_append] at whole ⊢
      exact whole
    | cons k js =>
      obtain ⟨e', grown⟩ := ih ⟨_, _, rfl⟩ (List.cons_ne_nil _ _)
      refine ⟨e', ?_⟩
      rw [List.append_assoc]
      exact .orMore last grown
  | _ =>
    obtain ⟨_, _, no⟩ := chain
    nomatch no

theorem orGrowsAnd {ks us : List Tok} {e right : Expr} (h : ExprOf .or ks e)
    (more : ExprOf .not us right) : ∃ e', ExprOf .or (ks ++ .kwAnd :: us) e' := by
  cases h with
  | @or ks left js e first rest =>
    cases js with
    | nil =>
      obtain ⟨wider, grown⟩ := andGrows first more
      have whole := ExprOf.or grown .orEnd
      refine ⟨wider, ?_⟩
      simp only [List.append_nil] at whole ⊢
      exact whole
    | cons k js =>
      obtain ⟨e', grown⟩ := orRestGrowsAnd rest more ⟨_, _, rfl⟩ (List.cons_ne_nil _ _)
      refine ⟨e', ?_⟩
      rw [List.append_assoc]
      exact .or first grown

theorem greedyWhere : Greedy .eof whereBefore WhereOf where
  sound reads := by
    obtain ⟨e, ⟨reads, -⟩, rfl⟩ := reads
    exact .expr reads
  longest := by
    intro ks p t reads
    cases reads with
    | @expr ks e reads =>
      by_cases isOr : t = .kwOr
      · subst isOr
        obtain ⟨e', grown⟩ := orGrows reads someAnd
        exact .inr ⟨Tok.noConfusion, _, _, .expr grown⟩
      by_cases isAnd : t = .kwAnd
      · subst isAnd
        obtain ⟨e', grown⟩ := orGrowsAnd reads someNot
        exact .inr ⟨Tok.noConfusion, _, _, .expr grown⟩
      exact .inl ⟨e, ⟨reads, isOr, isAnd⟩, rfl⟩

theorem greedyOrderItem : Greedy .eof orderItemBefore OrderItemOf where
  sound reads := reads.1
  longest := by
    intro ks i t reads
    cases reads with
    | plain =>
      cases direction : sortDir t with
      | none => exact .inl ⟨.plain, fun _ => direction⟩
      | some dir =>
        cases t with
        | kwAsc => exact .inr ⟨Tok.noConfusion, [], _, .asc⟩
        | kwDesc => exact .inr ⟨Tok.noConfusion, [], _, .desc⟩
        | _ => nomatch direction
    | asc => exact .inl ⟨.asc, fun two => nomatch two⟩
    | desc => exact .inl ⟨.desc, fun two => nomatch two⟩

theorem orderItemStops {ks : List Tok} {i : OrderItem} {t : Tok} (plain : sortDir t = none)
    (h : OrderItemOf ks i) : orderItemBefore t ks i := ⟨h, fun _ => plain⟩

theorem greedyOrder : Greedy .eof orderBefore OrderOf := by
  have items : Greedy .eof (SeparatedBefore .comma orderItemBefore)
      (Separated .comma OrderItemOf) :=
    greedySeparated greedyOrderItem Tok.noConfusion (orderItemStops rfl) ⟨[.ident []], _, .plain⟩
  constructor
  · intro t ks as reads
    obtain ⟨js, rfl, reads⟩ := reads
    exact .by_ (items.sound reads)
  · intro ks as t reads
    cases reads with
    | by_ reads =>
      obtain here | ⟨other, more, b, longer⟩ := items.longest t reads
      · exact .inl ⟨_, rfl, here⟩
      · exact .inr ⟨other, more, b, .by_ longer⟩

theorem greedyGroup : Greedy .eof groupBefore GroupOf := by
  have fields : Greedy .eof (SeparatedBefore .comma fun _ => FieldOf) (Separated .comma FieldOf) :=
    greedySeparated (greedySame _ _) Tok.noConfusion id ⟨[.ident []], _, .ident⟩
  constructor
  · intro t ks as reads
    obtain ⟨js, rfl, reads⟩ := reads
    exact .by_ (fields.sound reads)
  · intro ks as t reads
    cases reads with
    | by_ reads =>
      obtain here | ⟨other, more, b, longer⟩ := fields.longest t reads
      · exact .inl ⟨_, rfl, here⟩
      · exact .inr ⟨other, more, b, .by_ longer⟩

theorem greedyLimit : Greedy .eof limitBefore (LimitOf accepted) where
  sound reads := by
    obtain ⟨k, reads, rfl⟩ := reads
    cases reads with
    | int counted => exact .int counted
  longest := by
    intro ks n t reads
    cases reads with
    | int counted => exact .inl ⟨_, .int counted, rfl⟩

variable {r : Reading}

theorem offsetHead {k : Tok} {ks : List Tok} {v} (h : OffsetPart r (k :: ks) v) : k = .kwOffset := by
  obtain same | ⟨_, no⟩ := clauseHead h
  · exact same
  · nomatch no

theorem limitHead {k : Tok} {ks : List Tok} {v} (h : LimitPart r (k :: ks) v) :
    k = .kwLimit ∨ k = .kwOffset := by
  obtain same | ⟨_, later⟩ := clauseHead h
  · exact .inl same
  · exact .inr (offsetHead later)

theorem groupHead {k : Tok} {ks : List Tok} {v} (h : GroupPart r (k :: ks) v) :
    k = .kwGroup ∨ k = .kwLimit ∨ k = .kwOffset := by
  obtain same | ⟨_, later⟩ := clauseHead h
  · exact .inl same
  · exact .inr (limitHead later)

theorem orderHead {k : Tok} {ks : List Tok} {v} (h : OrderPart r (k :: ks) v) :
    k = .kwOrder ∨ k = .kwGroup ∨ k = .kwLimit ∨ k = .kwOffset := by
  obtain same | ⟨_, later⟩ := clauseHead h
  · exact .inl same
  · exact .inr (groupHead later)

theorem zeroCounted : accepted.count 0 0 :=
  ⟨Binary64.wholeZero, Binary64.nonnegativeZero, Binary64.toUsizeZero.symm⟩

theorem greedyOffsetPart : Greedy .eof offsetPartBefore (OffsetPart accepted) := by
  apply greedyClause (greedySame _ _) _ Tok.noConfusion
  · intro _ _ no
    nomatch no
  · intro _ _ _ _ _ no _
    nomatch no
  · exact ⟨_, _, .int zeroCounted⟩
  · exact ⟨(), rfl⟩
  · constructor
    · exact id
    · intro ks _ t none
      exact .inl none

theorem greedyLimitPart : Greedy .eof limitPartBefore (LimitPart accepted) := by
  apply greedyClause greedyLimit greedyOffsetPart Tok.noConfusion
  · intro _ _ later
    nomatch offsetHead later
  · intro _ _ _ _ _ _ reads
    cases reads with
    | int counted => exact ⟨_, .int counted, rfl⟩
  · exact ⟨_, _, .int zeroCounted⟩
  · exact ⟨(0, ()), .absent rfl⟩

theorem greedyGroupPart : Greedy .eof groupPartBefore (GroupPart accepted) := by
  apply greedyClause greedyGroup greedyLimitPart Tok.noConfusion
  · intro _ _ later
    obtain no | no := limitHead later
    all_goals nomatch no
  · intro k _ _ _ _ later reads
    have other : k ≠ .comma := by
      obtain rfl | rfl := limitHead later
      all_goals exact Tok.noConfusion
    cases reads with
    | by_ fields => exact ⟨_, rfl, separatedPlain.mpr ⟨fields, other⟩⟩
  · exact ⟨[.kwBy, .ident []], [[]], .by_ (.last .ident)⟩
  · exact ⟨(none, 0, ()), .absent (.absent rfl)⟩

theorem greedyOrderPart : Greedy .eof orderPartBefore (OrderPart accepted) := by
  apply greedyClause greedyOrder greedyGroupPart Tok.noConfusion
  · intro _ _ later
    obtain no | no | no := groupHead later
    all_goals nomatch no
  · intro k _ _ _ _ later reads
    have other : sortDir k = none ∧ k ≠ .comma := by
      obtain rfl | rfl | rfl := groupHead later
      all_goals exact ⟨rfl, Tok.noConfusion⟩
    cases reads with
    | by_ items =>
      exact ⟨_, rfl, separatedStops (orderItemStops rfl) (orderItemStops other.1) other.2 items⟩
  · exact ⟨[.kwBy, .ident []], [⟨[], .asc⟩], .by_ (.last .plain)⟩
  · exact ⟨([], none, 0, ()), .absent (.absent (.absent rfl))⟩

theorem greedyClauses : Greedy .eof clausesBefore (ClausesOf accepted) := by
  apply greedyClause greedyWhere greedyOrderPart Tok.noConfusion
  · intro _ _ later
    obtain no | no | no | no := orderHead later
    all_goals nomatch no
  · intro k _ _ _ _ later reads
    have other : k ≠ .kwOr ∧ k ≠ .kwAnd := by
      obtain rfl | rfl | rfl | rfl := orderHead later
      all_goals exact ⟨Tok.noConfusion, Tok.noConfusion⟩
    cases reads with
    | expr reads => exact ⟨_, ⟨reads, other⟩, rfl⟩
  · exact ⟨_, _, .expr (.or someAnd .orEnd)⟩
  · exact ⟨([], [], none, 0, ()), .absent (.absent (.absent (.absent rfl)))⟩

theorem greedyQuery : Greedy .eof QueryBefore (QueryOf accepted) where
  sound reads := by
    cases reads with
    | query explained projected clauses =>
      exact .query explained projected (greedyClauses.sound clauses)
  longest := by
    intro ks q t reads
    cases reads with
    | @query xs explain ps projection source ks _ _ _ _ _ explained projected clauses =>
      obtain here | ⟨other, more, c, longer⟩ := greedyClauses.longest t clauses
      · exact .inl (.query explained projected here)
      · obtain ⟨predicate, order, group, limit, offset, _⟩ := c
        refine .inr ⟨other, more,
          completed explain projection source (predicate, order, group, limit, offset, ()), ?_⟩
        simp only [List.append_assoc, List.cons_append]
        exact .query explained projected longer

end Longest

section Closed
variable {α β : Type}

/-- No derivation contains the end of the text. -/
def Inner (G : Language Tok α) : Prop := ∀ ks a, G ks a → .eof ∉ ks

theorem innerSeparated {sep : Tok} {G : Language Tok α} (each : Inner G) (token : sep ≠ .eof) :
    Inner (Separated sep G) := by
  intro ks as reads
  induction reads with
  | last item => exact each _ _ item
  | more item _ ih =>
    intro mem
    rcases List.mem_append.mp mem with inItem | later
    · exact each _ _ item inItem
    · rcases List.mem_cons.mp later with same | inRest
      · exact token same.symm
      · exact ih inRest

theorem innerClause {kw : Tok} {body : Language Tok α} {absence : α} {rest : Language Tok β}
    (token : kw ≠ .eof) (part : Inner body) (tail : Inner rest) :
    Inner (Clause kw body absence rest) := by
  intro ks both reads
  cases reads with
  | absent later => exact tail _ _ later
  | present here later =>
    intro mem
    rcases List.mem_append.mp mem with inPart | inRest
    · rcases List.mem_cons.mp inPart with same | inside
      · exact token same.symm
      · exact part _ _ here inside
    · exact tail _ _ later inRest

theorem innerField : Inner FieldOf := by
  intro ks s reads
  cases reads
  simp

theorem innerItem {r : Reading} : Inner (ItemOf r) := by
  intro ks i reads
  cases reads with
  | field => simp
  | star function _ =>
    cases function
    all_goals simp
  | ofField function _ =>
    cases function
    all_goals simp

theorem innerValue : Inner ValueOf := by
  intro ks v reads
  cases reads
  all_goals simp

theorem innerFieldPred : Inner FieldPredOf := by
  intro ks p reads
  cases reads with
  | compare operator value =>
    have inside := innerValue _ _ value
    cases operator
    all_goals simpa using inside
  | in_ values =>
    have inside := innerSeparated innerValue Tok.noConfusion _ _ values
    simpa using inside
  | isNull => simp
  | isNotNull => simp
  | isAbsent => simp

theorem innerExpr {level : Level} : Inner (ExprOf level) := by
  intro ks e reads
  induction reads with
  | field inner => exact innerFieldPred _ _ inner
  | pred _ ih => exact ih
  | orEnd => simp
  | andEnd => simp
  | not _ ih => simpa using ih
  | paren _ ih => simpa using ih
  | or _ _ ih ih' => simp [ih, ih']
  | and _ _ ih ih' => simp [ih, ih']
  | orMore _ _ ih ih' => simp [ih, ih']
  | andMore _ _ ih ih' => simp [ih, ih']

theorem innerOrderItem : Inner OrderItemOf := by
  intro ks i reads
  cases reads
  all_goals simp

theorem innerProjection {r : Reading} : Inner (ProjectionOf r) := by
  intro ks p reads
  cases reads with
  | star => simp
  | items items => exact innerSeparated innerItem Tok.noConfusion _ _ items

theorem innerQuery {r : Reading} : Inner (QueryOf r) := by
  have predicate : Inner WhereOf := by
    intro ks p reads
    cases reads with
    | expr reads => exact innerExpr _ _ reads
  have order : Inner OrderOf := by
    intro ks items reads
    cases reads with
    | by_ reads =>
      have inside := innerSeparated innerOrderItem Tok.noConfusion _ _ reads
      simpa using inside
  have group : Inner GroupOf := by
    intro ks fields reads
    cases reads with
    | by_ reads =>
      have inside := innerSeparated innerField Tok.noConfusion _ _ reads
      simpa using inside
  have limit : Inner (LimitOf r) := by
    intro ks n reads
    cases reads
    simp
  have offset : Inner (OffsetOf r) := by
    intro ks n reads
    cases reads
    simp
  have nothing : Inner (fun (ks : List Tok) (_ : Unit) => ks = []) := by
    intro ks _ none
    rw [none]
    simp
  have clauses : Inner (ClausesOf r) := innerClause Tok.noConfusion predicate
    (innerClause Tok.noConfusion order (innerClause Tok.noConfusion group
      (innerClause Tok.noConfusion limit (innerClause Tok.noConfusion offset nothing))))
  intro ks q reads
  cases reads with
  | query explained projected after =>
    have first : Tok.eof ∉ _ := clauses _ _ after
    have second : Tok.eof ∉ _ := innerProjection _ _ projected
    cases explained
    all_goals simp [first, second]

end Closed

def parseSteps (tokens : List Token) : Option (LsmqlResult (Query × List Token)) :=
  parseQuery tokens

theorem parseStepsEnd (tokens : List Token) : (parseSteps tokens).isSome = true :=
  Option.isSome_iff_ne_none.mpr (recognizesQuery tokens).1

def parse (tokens : List Token) : LsmqlResult Query :=
  ((parseSteps tokens).get (parseStepsEnd tokens)).map Prod.fst

section Reading
variable {r r' : Reading} {ts pre rest : List Tok} {q : Query}

theorem firstOk {result : Option (LsmqlResult (Query × List Token))} (ends : result.isSome = true) :
    (result.get ends).map Prod.fst = .ok q ↔ ∃ left, result = some (.ok (q, left)) := by
  cases result with
  | none => nomatch ends
  | some result =>
    cases result with
    | error e =>
      constructor
      · intro no
        nomatch no
      · intro no
        obtain ⟨left, no⟩ := no
        nomatch no
    | ok pair =>
      obtain ⟨q', left⟩ := pair
      constructor
      · intro same
        cases same
        exact ⟨left, rfl⟩
      · intro same
        obtain ⟨left', same⟩ := same
        cases same
        rfl

theorem parseYields {tokens : List Token} :
    parse tokens = .ok q ↔ ∃ left, Yields parseQuery tokens q left :=
  firstOk (parseStepsEnd tokens)

theorem nextKinds (tokens : List Token) : next tokens = ahead .eof (kinds tokens) := by
  cases tokens with
  | nil => rfl
  | cons _ _ => rfl

theorem yieldsOf {tokens : List Token} (split : kinds tokens = pre ++ rest)
    (reads : QueryBefore (ahead .eof rest) pre q) :
    ∃ left, kinds left = rest ∧ Yields parseQuery tokens q left := by
  obtain ⟨used, left, rfl, rfl, rfl⟩ := List.map_eq_append_iff.mp split
  refine ⟨left, rfl, ((recognizesQuery _).2 q left).mpr ⟨used, rfl, ?_⟩⟩
  rw [nextKinds]
  exact reads

theorem readsOnce {pre' rest' : List Tok} {q' : Query} (same : pre ++ rest = pre' ++ rest')
    (one : QueryBefore (ahead .eof rest) pre q) (two : QueryBefore (ahead .eof rest') pre' q') :
    rest = rest' ∧ q = q' := by
  have whole : kinds ((pre ++ rest).map fun t => Token.mk t ⟨0, 0⟩) = pre ++ rest := by
    unfold kinds
    rw [List.map_map]
    exact List.map_id _
  obtain ⟨left, rfl, first⟩ := yieldsOf whole one
  obtain ⟨left', rfl, second⟩ := yieldsOf (whole.trans same) two
  have both := Except.ok.inj (Option.some.inj (first.symm.trans second))
  exact ⟨congrArg (fun p => kinds p.2) both, congrArg Prod.fst both⟩

theorem parseReads {tokens : List Token} (shape : tokens.map Token.tok = ts ++ [.eof]) :
    parse tokens = .ok q ↔ ∃ pre rest, ts = pre ++ rest ∧ QueryBefore (ahead .eof rest) pre q := by
  rw [parseYields]
  constructor
  · intro h
    obtain ⟨left, yields⟩ := h
    obtain ⟨used, rfl, reads⟩ := ((recognizesQuery tokens).2 q left).mp yields
    have clean : Tok.eof ∉ kinds used := innerQuery _ _ (greedyQuery.sound reads)
    rw [nextKinds] at reads
    have parts : kinds used ++ kinds left = ts ++ [.eof] := by
      rw [← kindsAppend]
      exact shape
    rcases List.append_eq_append_iff.mp parts with ⟨more, rfl, left'⟩ | ⟨more, used', left'⟩
    · refine ⟨kinds used, more, rfl, ?_⟩
      rw [left'] at reads
      cases more with
      | nil => exact reads
      | cons _ _ => exact reads
    · cases more with
      | nil =>
        rw [List.append_nil] at used'
        have last : kinds left = [.eof] := left'.symm
        rw [last] at reads
        exact ⟨kinds used, [], by rw [used', List.append_nil], reads⟩
      | cons k more =>
        obtain ⟨rfl, -⟩ := List.cons.inj left'
        rw [used'] at clean
        exact absurd (List.mem_append_right _ List.mem_cons_self) clean
  · intro h
    obtain ⟨pre, rest, rfl, reads⟩ := h
    have split : kinds tokens = pre ++ (rest ++ [.eof]) := by
      rw [← List.append_assoc]
      exact shape
    have seen : ahead .eof (rest ++ [.eof]) = ahead Tok.eof rest := by
      cases rest with
      | nil => rfl
      | cons _ _ => rfl
    obtain ⟨left, -, yields⟩ := yieldsOf split (seen ▸ reads)
    exact ⟨left, yields⟩

end Reading

end MyLsmDb.Lsmql
