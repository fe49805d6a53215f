import Mathlib.Data.List.Basic
import Mathlib.Data.List.TakeDrop

/-! Recursive descent with one token of lookahead, and the languages that such parsers read.
A language says which tokens are read as which value; the language of a parser also says
before which next token it stops there. -/
namespace Recognizer

/-- Tokens of type `σ` are told apart by their kind; one kind ends the input. -/
class Kinds (σ : Type) (κ : outParam Type) where
  kind : σ → κ
  eof : κ

open Kinds

/- The state is what is left of the input; `none` says that the fuel was used up. -/
abbrev Parser (σ ε : Type) := StateT (List σ) (ExceptT ε Option)

section Machine
variable {σ ε κ α β : Type} [Kinds σ κ]

def next : List σ → κ
  | [] => eof σ
  | x :: _ => kind x

/-- The kind of the token that stands before a token of kind `t` when `ks` is in between. -/
def ahead (t : κ) : List κ → κ
  | [] => t
  | k :: _ => k

def kinds (ts : List σ) : List κ := ts.map kind

def peek : Parser σ ε κ := fun ts => some (.ok (next ts, ts))

/-- The next token; the one that ends the input stays. -/
def bump [DecidableEq κ] : Parser σ ε κ := fun ts =>
  if next ts = eof σ then some (.ok (eof σ, ts)) else some (.ok (next ts, ts.tail))

def fail (e : List σ → ε) : Parser σ ε α := fun ts => some (.error (e ts))

def stuck : Parser σ ε α := fun _ => none

def Yields (p : Parser σ ε α) (ts : List σ) (a : α) (rest : List σ) : Prop :=
  p ts = some (.ok (a, rest))

def Ends (p : Parser σ ε α) (ts : List σ) : Prop := p ts ≠ none

theorem yieldsPure {a b : α} {ts rest : List σ} :
    Yields (pure a : Parser σ ε α) ts b rest ↔ a = b ∧ ts = rest := by
  constructor
  · intro h
    exact Prod.mk.inj (Except.ok.inj (Option.some.inj h))
  · intro h
    obtain ⟨rfl, rfl⟩ := h
    rfl

theorem bindSteps (x : Parser σ ε α) (f : α → Parser σ ε β) (ts : List σ) :
    (x >>= f) ts =
      match x ts with
      | none => none
      | some (.error e) => some (.error e)
      | some (.ok (a, mid)) => f a mid := by
  change Option.bind (x ts) _ = _
  cases x ts with
  | none => rfl
  | some result =>
    cases result with
    | error e => rfl
    | ok pair => rfl

theorem yieldsBind {x : Parser σ ε α} {f : α → Parser σ ε β} {ts rest : List σ} {b : β} :
    Yields (x >>= f) ts b rest ↔ ∃ a mid, Yields x ts a mid ∧ Yields (f a) mid b rest := by
  unfold Yields
  rw [bindSteps]
  constructor
  · intro h
    cases found : x ts with
    | none =>
      rw [found] at h
      nomatch h
    | some result =>
      rw [found] at h
      cases result with
      | error e => nomatch h
      | ok pair => exact ⟨pair.1, pair.2, rfl, h⟩
  · intro h
    obtain ⟨a, mid, first, second⟩ := h
    rw [first]
    exact second

theorem endsBind {x : Parser σ ε α} {f : α → Parser σ ε β} {ts : List σ} (first : Ends x ts)
    (second : ∀ a mid, Yields x ts a mid → Ends (f a) mid) : Ends (x >>= f) ts := by
  unfold Ends at first ⊢
  rw [bindSteps]
  cases found : x ts with
  | none => exact absurd found first
  | some result =>
    cases result with
    | error e => exact Option.some_ne_none _
    | ok pair => exact second pair.1 pair.2 found

end Machine

/-- The token lists that stand for a value. -/
abbrev Language (κ α : Type) := List κ → α → Prop

/-- What is read as which value when a token of the given kind follows. -/
abbrev Lookahead (κ α : Type) := κ → List κ → α → Prop

namespace Lookahead
variable {κ α β : Type}

def nothing (a : α) : Lookahead κ α := fun _ ks b => ks = [] ∧ a = b

def image (f : α → β) (L : Lookahead κ α) : Lookahead κ β := fun t ks b => ∃ a, L t ks a ∧ f a = b

def bind (L : Lookahead κ α) (M : α → Lookahead κ β) : Lookahead κ β := fun t ks b =>
  ∃ left right a, ks = left ++ right ∧ L (ahead t right) left a ∧ M a t right b

def branch (k : κ) (L M : Lookahead κ α) : Lookahead κ α := fun t ks a =>
  (∃ js, ks = k :: js ∧ L t js a) ∨ ahead t ks ≠ k ∧ M t ks a

end Lookahead

open Lookahead

section Recognition
variable {σ ε κ α β γ : Type} [Kinds σ κ]

/-- On this input the parser ends, and it yields exactly what the language reads. -/
def RecognizesAt (p : Parser σ ε α) (L : Lookahead κ α) (ts : List σ) : Prop :=
  Ends p ts ∧ ∀ a rest, Yields p ts a rest ↔
    ∃ used, ts = used ++ rest ∧ L (next rest) (kinds used) a

def Recognizes (p : Parser σ ε α) (L : Lookahead κ α) : Prop := ∀ ts, RecognizesAt p L ts

theorem nextAppend (used rest : List σ) : next (used ++ rest) = ahead (next rest) (kinds used) := by
  cases used with
  | nil => rfl
  | cons x used => rfl

theorem kindsAppend (left right : List σ) : kinds (left ++ right) = kinds left ++ kinds right :=
  List.map_append

theorem recognizesHere {p : Parser σ ε α} {L M : Lookahead κ α} {ts : List σ}
    (same : ∀ used rest a, ts = used ++ rest →
      (L (next rest) (kinds used) a ↔ M (next rest) (kinds used) a))
    (h : RecognizesAt p L ts) : RecognizesAt p M ts := by
  obtain ⟨ends, yields⟩ := h
  constructor
  · exact ends
  · intro a rest
    rw [yields a rest]
    constructor
    · intro h
      obtain ⟨used, split, reads⟩ := h
      exact ⟨used, split, (same used rest a split).mp reads⟩
    · intro h
      obtain ⟨used, split, reads⟩ := h
      exact ⟨used, split, (same used rest a split).mpr reads⟩

theorem recognizesCongr {p : Parser σ ε α} {L M : Lookahead κ α} {ts : List σ}
    (same : ∀ t ks a, L t ks a ↔ M t ks a) (h : RecognizesAt p L ts) : RecognizesAt p M ts :=
  recognizesHere (fun _ _ _ _ => same _ _ _) h

theorem recognizesPure (a : α) : Recognizes (pure a : Parser σ ε α) (nothing a) := by
  intro ts
  constructor
  · exact Option.some_ne_none _
  · intro b rest
    rw [yieldsPure]
    constructor
    · intro h
      obtain ⟨rfl, rfl⟩ := h
      exact ⟨[], rfl, rfl, rfl⟩
    · intro h
      obtain ⟨used, rfl, empty, rfl⟩ := h
      have : used = [] := List.map_eq_nil_iff.mp empty
      subst this
      exact ⟨rfl, rfl⟩

theorem recognizesBind {x : Parser σ ε α} {f : α → Parser σ ε β} {L : Lookahead κ α}
    {M : α → Lookahead κ β} {ts : List σ} (first : RecognizesAt x L ts)
    (second : ∀ a used rest, ts = used ++ rest → L (next rest) (kinds used) a →
      RecognizesAt (f a) (M a) rest) : RecognizesAt (x >>= f) (L.bind M) ts := by
  obtain ⟨ends, yields⟩ := first
  constructor
  · apply endsBind ends
    intro a mid found
    obtain ⟨used, split, reads⟩ := (yields a mid).mp found
    exact (second a used mid split reads).1
  · intro b rest
    rw [yieldsBind]
    constructor
    · intro h
      obtain ⟨a, mid, found, last⟩ := h
      obtain ⟨used, split, reads⟩ := (yields a mid).mp found
      obtain ⟨more, rfl, readsMore⟩ := ((second a used mid split reads).2 b rest).mp last
      refine ⟨used ++ more, ?_, kinds used, kinds more, a, kindsAppend _ _, ?_, readsMore⟩
      · rw [split, List.append_assoc]
      · rw [← nextAppend]
        exact reads
    · intro h
      obtain ⟨both, split, left, right, a, parts, reads, readsMore⟩ := h
      obtain ⟨used, more, rfl, rfl, rfl⟩ := List.map_eq_append_iff.mp parts
      have here : ts = used ++ (more ++ rest) := by rw [split, List.append_assoc]
      have seen : L (next (more ++ rest)) (kinds used) a := by
        rw [nextAppend]
        exact reads
      refine ⟨a, more ++ rest, (yields a _).mpr ⟨used, here, seen⟩, ?_⟩
      exact ((second a used _ here seen).2 b rest).mpr ⟨more, rfl, readsMore⟩

theorem recognizesMapAt {p : Parser σ ε α} {L : Lookahead κ α} {ts : List σ}
    (h : RecognizesAt p L ts) (f : α → β) :
    RecognizesAt (p >>= fun a => pure (f a)) (L.image f) ts := by
  apply recognizesCongr _ (recognizesBind h (fun a _ rest _ _ => recognizesPure (f a) rest))
  intro t ks b
  constructor
  · intro reads
    obtain ⟨left, right, a, rfl, here, rfl, rfl⟩ := reads
    rw [List.append_nil]
    exact ⟨a, here, rfl⟩
  · intro reads
    obtain ⟨a, here, rfl⟩ := reads
    exact ⟨ks, [], a, (List.append_nil ks).symm, here, rfl, rfl⟩

theorem recognizesMap {p : Parser σ ε α} {L : Lookahead κ α} (h : Recognizes p L) (f : α → β) :
    Recognizes (p >>= fun a => pure (f a)) (L.image f) := fun ts => recognizesMapAt (h ts) f

theorem recognizesFail (e : List σ → ε) {L : Lookahead κ α} {ts : List σ}
    (empty : ∀ used rest a, ts = used ++ rest → ¬ L (next rest) (kinds used) a) :
    RecognizesAt (fail e : Parser σ ε α) L ts := by
  constructor
  · exact Option.some_ne_none _
  · intro a rest
    constructor
    · intro h
      nomatch h
    · intro h
      obtain ⟨used, split, reads⟩ := h
      exact absurd reads (empty used rest a split)

theorem recognizesAtCongr {p q : Parser σ ε α} {L : Lookahead κ α} {ts : List σ}
    (same : p ts = q ts) : RecognizesAt p L ts ↔ RecognizesAt q L ts := by
  unfold RecognizesAt Ends Yields
  rw [same]

theorem recognizesTake {p q : Parser σ ε α} {L : Lookahead κ α} {x : σ} {ts : List σ}
    (step : p (x :: ts) = q ts) (some : ∀ a, ¬ L (kind x) [] a)
    (h : RecognizesAt q (fun t ks a => L t (kind x :: ks) a) ts) : RecognizesAt p L (x :: ts) := by
  obtain ⟨ends, yields⟩ := h
  unfold RecognizesAt Ends Yields
  rw [step]
  constructor
  · exact ends
  · intro a rest
    refine (yields a rest).trans ?_
    constructor
    · intro reads
      obtain ⟨used, rfl, here⟩ := reads
      exact ⟨x :: used, rfl, here⟩
    · intro reads
      obtain ⟨used, split, here⟩ := reads
      cases used with
      | nil =>
        cases split
        exact absurd here (some a)
      | cons y used =>
        cases split
        exact ⟨used, rfl, here⟩

theorem peekStep {g : κ → Parser σ ε α} (ts : List σ) : (peek >>= g) ts = g (next ts) ts := rfl

/- At the end of the input a kind other than the end is not seen. -/
theorem nextToken {ts : List σ} {k : κ} (seen : next ts = k) (token : k ≠ eof σ) :
    ∃ x rest, ts = x :: rest ∧ kind x = k := by
  cases ts with
  | nil => exact absurd seen.symm token
  | cons x rest => exact ⟨x, rest, rfl, seen⟩

inductive Separated (sep : κ) (item : Language κ α) : Language κ (List α)
  | last {ks a} : item ks a → Separated sep item ks [a]
  | more {ks a js as} : item ks a → Separated sep item js as →
      Separated sep item (ks ++ sep :: js) (a :: as)

inductive SeparatedBefore (sep : κ) (item : Lookahead κ α) (t : κ) : Language κ (List α)
  | last {ks a} : item t ks a → t ≠ sep → SeparatedBefore sep item t ks [a]
  | more {ks a js as} : item sep ks a → SeparatedBefore sep item t js as →
      SeparatedBefore sep item t (ks ++ sep :: js) (a :: as)

theorem separatedHead {sep : κ} {item : Language κ α} {P : κ → Prop} {ks : List κ} {as : List α}
    (each : ∀ {ks a}, item ks a → ∃ k js, ks = k :: js ∧ P k) (h : Separated sep item ks as) :
    ∃ k js, ks = k :: js ∧ P k := by
  cases h with
  | last reads => exact each reads
  | more reads _ =>
    obtain ⟨k, js, rfl, holds⟩ := each reads
    exact ⟨k, _, rfl, holds⟩

theorem separatedPlain {sep t : κ} {G : Language κ α} {ks : List κ} {as : List α} :
    SeparatedBefore sep (fun _ => G) t ks as ↔ Separated sep G ks as ∧ t ≠ sep := by
  constructor
  · intro reads
    induction reads with
    | last item stops => exact ⟨.last item, stops⟩
    | more item _ ih => exact ⟨.more item ih.1, ih.2⟩
  · intro reads
    obtain ⟨reads, stops⟩ := reads
    induction reads with
    | last item => exact .last item stops
    | more item _ ih => exact .more item ih

/-- What stands behind an item: the end of the list, or a separator and more of it. -/
def behind (sep : κ) (L : Lookahead κ (List α)) (a : α) : Lookahead κ (List α) := fun t ks as =>
  (ks = [] ∧ as = [a] ∧ t ≠ sep) ∨ ∃ js rest, ks = sep :: js ∧ as = a :: rest ∧ L t js rest

theorem separatedUnfold {sep : κ} {item : Lookahead κ α} {t : κ} {ks : List κ} {as : List α} :
    SeparatedBefore sep item t ks as ↔
      item.bind (behind sep (SeparatedBefore sep item)) t ks as := by
  constructor
  · intro h
    cases h with
    | last reads stops =>
      exact ⟨ks, [], _, (List.append_nil ks).symm, reads, .inl ⟨rfl, rfl, stops⟩⟩
    | more reads rest => exact ⟨_, _, _, rfl, reads, .inr ⟨_, _, rfl, rfl, rest⟩⟩
  · intro h
    obtain ⟨left, right, a, rfl, reads, ⟨rfl, rfl, stops⟩ | ⟨js, rest, rfl, rfl, tail⟩⟩ := h
    · rw [List.append_nil]
      exact .last reads stops
    · exact .more reads tail

/-- An optional part that starts with a keyword, and what follows it. -/
inductive Clause (kw : κ) (body : Language κ α) (absence : α) (rest : Language κ β) :
    Language κ (α × β)
  | absent {js b} : rest js b → Clause kw body absence rest js (absence, b)
  | present {ks a js b} : body ks a → rest js b →
      Clause kw body absence rest (kw :: ks ++ js) (a, b)

inductive ClauseBefore (kw : κ) (body : Lookahead κ α) (absence : α) (rest : Lookahead κ β)
    (t : κ) : Language κ (α × β)
  | absent {js b} : rest t js b → ahead t js ≠ kw →
      ClauseBefore kw body absence rest t js (absence, b)
  | present {ks a js b} : body (ahead t js) ks a → rest t js b →
      ClauseBefore kw body absence rest t (kw :: ks ++ js) (a, b)

/-- A reading with lookahead is one of the language, and it stops only before a token that
nothing of the language goes on with. -/
structure Greedy (eof : κ) (L : Lookahead κ α) (G : Language κ α) : Prop where
  sound : ∀ {t ks a}, L t ks a → G ks a
  longest : ∀ {ks a} (t), G ks a → L t ks a ∨ t ≠ eof ∧ ∃ js b, G (ks ++ t :: js) b

theorem greedySame (eof : κ) (G : Language κ α) : Greedy eof (fun _ => G) G where
  sound reads := reads
  longest _ reads := .inl reads

theorem greedySeparated {eof sep : κ} {L : Lookahead κ α} {G : Language κ α}
    (each : Greedy eof L G) (token : sep ≠ eof) (stops : ∀ {ks a}, G ks a → L sep ks a)
    (some : ∃ ks a, G ks a) : Greedy eof (SeparatedBefore sep L) (Separated sep G) where
  sound reads := by
    induction reads with
    | last item _ => exact .last (each.sound item)
    | more item _ ih => exact .more (each.sound item) ih
  longest := by
    intro ks as t reads
    induction reads with
    | last item =>
      obtain here | ⟨other, js, b, longer⟩ := each.longest t item
      · by_cases same : t = sep
        · obtain ⟨js, b, next⟩ := some
          subst same
          exact .inr ⟨token, js, _, .more item (.last next)⟩
        · exact .inl (.last here same)
      · exact .inr ⟨other, js, _, .last longer⟩
    | @more _ a _ _ item _ ih =>
      obtain here | ⟨other, js, b, longer⟩ := ih
      · exact .inl (.more (stops item) here)
      · refine .inr ⟨other, js, a :: b, ?_⟩
        rw [List.append_assoc, List.cons_append]
        exact .more item longer

theorem separatedStops {sep t : κ} {L : Lookahead κ α} {G : Language κ α} {ks : List κ}
    {as : List α} (stops : ∀ {ks a}, G ks a → L sep ks a) (last : ∀ {ks a}, G ks a → L t ks a)
    (other : t ≠ sep) (h : Separated sep G ks as) : SeparatedBefore sep L t ks as := by
  induction h with
  | last item => exact .last (last item) other
  | more item _ ih => exact .more (stops item) ih

theorem clauseHead {kw k : κ} {body : Language κ α} {absence : α} {rest : Language κ β}
    {ks : List κ} {both : α × β} (h : Clause kw body absence rest (k :: ks) both) :
    k = kw ∨ ∃ b, rest (k :: ks) b := by
  generalize whole : k :: ks = all at h
  cases h with
  | absent tail =>
    subst whole
    exact .inr ⟨_, tail⟩
  | present _ _ => exact .inl (List.cons.inj whole).1

theorem greedyClause {eof kw : κ} {LB : Lookahead κ α} {GB : Language κ α} {absence : α}
    {LR : Lookahead κ β} {GR : Language κ β} (body : Greedy eof LB GB) (rest : Greedy eof LR GR)
    (token : kw ≠ eof) (other : ∀ {js b}, ¬ GR (kw :: js) b)
    (stops : ∀ {k js b ks a}, GR (k :: js) b → GB ks a → LB k ks a)
    (some : ∃ ks a, GB ks a) (bare : ∃ b, GR [] b) :
    Greedy eof (ClauseBefore kw LB absence LR) (Clause kw GB absence GR) where
  sound reads := by
    cases reads with
    | absent tail _ => exact .absent (rest.sound tail)
    | present part tail => exact .present (body.sound part) (rest.sound tail)
  longest := by
    intro js both t reads
    obtain ⟨bareValue, bare⟩ := bare
    cases reads with
    | absent tail =>
      obtain here | ⟨different, more, c, longer⟩ := rest.longest t tail
      · by_cases same : ahead t js = kw
        · cases js with
          | nil =>
            obtain ⟨ks, a, part⟩ := some
            cases same
            have extended : Clause (ahead t []) GB absence GR (ahead t [] :: ks ++ []) (a, bareValue) :=
              .present part bare
            rw [List.append_nil] at extended
            exact .inr ⟨token, ks, _, extended⟩
          | cons k js =>
            cases same
            exact absurd tail other
        · exact .inl (.absent here same)
      · exact .inr ⟨different, more, _, .absent longer⟩
    | @present ks a js b part tail =>
      obtain here | ⟨different, more, c, longer⟩ := rest.longest t tail
      · cases js with
        | nil =>
          obtain stop | ⟨different, more, c, longer⟩ := body.longest t part
          · exact .inl (.present stop here)
          · have extended : Clause kw GB absence GR (kw :: (ks ++ t :: more) ++ []) (c, bareValue) :=
              .present longer bare
            refine .inr ⟨different, more, (c, bareValue), ?_⟩
            simp only [List.append_nil] at extended ⊢
            exact extended
        | cons k js => exact .inl (.present (stops tail part) here)
      · refine .inr ⟨different, more, (a, c), ?_⟩
        rw [List.append_assoc]
        exact .present part longer

variable [DecidableEq κ]

theorem bumpToken {g : κ → Parser σ ε α} {x : σ} {ts : List σ} (token : kind x ≠ eof σ) :
    (bump >>= g) (x :: ts) = g (kind x) ts := by
  rw [bindSteps]
  have taken : (bump : Parser σ ε κ) (x :: ts) = some (.ok (kind x, ts)) := if_neg token
  rw [taken]

theorem recognizesBranch {k : κ} (token : k ≠ eof σ) {p : Parser σ ε α} {q : κ → Parser σ ε α}
    {L M : Lookahead κ α} {ts : List σ} (yes : ∀ x tail, ts = x :: tail → RecognizesAt p L tail)
    (no : RecognizesAt (q (next ts)) M ts) :
    RecognizesAt (peek >>= fun t => if t = k then bump >>= fun _ => p else q t)
      (branch k L M) ts := by
  rw [recognizesAtCongr (peekStep ts)]
  by_cases seen : next ts = k
  · rw [if_pos seen]
    obtain ⟨x, tail, rfl, rfl⟩ := nextToken seen token
    apply recognizesTake (bumpToken token)
    · intro a reads
      obtain ⟨js, none, -⟩ | ⟨other, -⟩ := reads
      · nomatch none
      · exact other rfl
    · apply recognizesCongr _ (yes x tail rfl)
      intro t ks a
      constructor
      · intro reads
        exact .inl ⟨ks, rfl, reads⟩
      · intro reads
        obtain ⟨js, same, reads⟩ | ⟨other, -⟩ := reads
        · rw [(List.cons.inj same).2]
          exact reads
        · exact absurd rfl other
  · rw [if_neg seen]
    apply recognizesHere _ no
    intro used rest a split
    rw [split, nextAppend] at seen
    constructor
    · intro reads
      exact .inr ⟨seen, reads⟩
    · intro reads
      obtain ⟨js, same, -⟩ | ⟨-, reads⟩ := reads
      · rw [same] at seen
        exact absurd rfl seen
      · exact reads

def oneToken (eof : κ) : Lookahead κ κ := fun t ks k =>
  (ks = [k] ∧ k ≠ eof) ∨ ks = [] ∧ k = eof ∧ t = eof

theorem recognizesBump : Recognizes (bump : Parser σ ε κ) (oneToken (eof σ)) := by
  intro ts
  constructor
  · unfold Ends bump
    split
    · exact Option.some_ne_none _
    · exact Option.some_ne_none _
  · intro k rest
    unfold Yields bump
    constructor
    · intro h
      split at h
      · rename_i last
        cases h
        exact ⟨[], rfl, .inr ⟨rfl, rfl, last⟩⟩
      · rename_i token
        cases h
        obtain ⟨x, tail, rfl, -⟩ := nextToken rfl token
        exact ⟨[x], rfl, .inl ⟨rfl, token⟩⟩
    · intro h
      obtain ⟨used, rfl, ⟨single, token⟩ | ⟨none, rfl, last⟩⟩ := h
      · obtain ⟨x, rfl, rfl⟩ := List.map_eq_singleton_iff.mp single
        exact if_neg token
      · have : used = [] := List.map_eq_nil_iff.mp none
        subst this
        exact if_pos last

theorem recognizesFirst {g : κ → Parser σ ε α} {M : κ → Lookahead κ α}
    (ended : ∀ t ks a, ¬ M (eof σ) t ks a) (each : ∀ k, Recognizes (g k) (M k)) :
    Recognizes (bump >>= g) (fun t ks a => ∃ k js, ks = k :: js ∧ M k t js a) := by
  intro ts
  apply recognizesCongr _ (recognizesBind (recognizesBump ts) (fun k _ rest _ _ => each k rest))
  intro t ks a
  constructor
  · intro reads
    obtain ⟨left, right, k, rfl, ⟨rfl, -⟩ | ⟨-, rfl, -⟩, after⟩ := reads
    · exact ⟨k, right, rfl, after⟩
    · exact absurd after (ended _ _ _)
  · intro reads
    obtain ⟨k, js, rfl, after⟩ := reads
    refine ⟨[k], js, k, rfl, .inl ⟨rfl, ?_⟩, after⟩
    intro last
    subst last
    exact ended _ _ _ after

theorem recognizesOne {g : κ → Parser σ ε α} {f : κ → Option α} (ended : f (eof σ) = none)
    (hit : ∀ {t a}, f t = some a → g t = pure a)
    (miss : ∀ {t}, f t = none → ∃ e, g t = fail e) :
    Recognizes (bump >>= g) (fun _ ks a => ∃ k, ks = [k] ∧ f k = some a) := by
  intro ts
  apply recognizesCongr _ (recognizesFirst (M := fun k _ ks a => ks = [] ∧ f k = some a) _ _ ts)
  · intro t ks a
    constructor
    · intro reads
      obtain ⟨k, js, rfl, rfl, found⟩ := reads
      exact ⟨k, rfl, found⟩
    · intro reads
      obtain ⟨k, rfl, found⟩ := reads
      exact ⟨k, [], rfl, rfl, found⟩
  · intro t ks a reads
    nomatch ended.symm.trans reads.2
  · intro k rest
    cases found : f k with
    | none =>
      obtain ⟨e, failed⟩ := miss found
      rw [failed]
      apply recognizesFail
      intro _ _ a _ reads
      nomatch reads.2
    | some a =>
      rw [hit found]
      apply recognizesCongr _ (recognizesPure a rest)
      intro t ks b
      constructor
      · intro reads
        obtain ⟨rfl, rfl⟩ := reads
        exact ⟨rfl, rfl⟩
      · intro reads
        exact ⟨reads.1, Option.some.inj reads.2⟩

/-- `item (sep item)*`; the fuel counts the items. -/
def separated (sep : κ) (item : Parser σ ε α) : Nat → Parser σ ε (List α)
  | 0 => stuck
  | fuel + 1 => do
    let a ← item
    let t ← peek
    if t = sep then
      let _ ← bump
      let as ← separated sep item fuel
      pure (a :: as)
    else pure [a]

/- Every item but the last has a token behind it. -/
def separatedList (sep : κ) (item : Parser σ ε α) : Parser σ ε (List α) := fun ts =>
  separated sep item (ts.length + 1) ts

theorem recognizesSeparated {sep : κ} {item : Parser σ ε α} {L : Lookahead κ α}
    (token : sep ≠ eof σ) (each : Recognizes item L) :
    Recognizes (separatedList sep item) (SeparatedBefore sep L) := by
  have bounded : ∀ fuel (ts : List σ), ts.length < fuel →
      RecognizesAt (separated sep item fuel) (SeparatedBefore sep L) ts := by
    intro fuel
    induction fuel with
    | zero => exact fun ts short => absurd short (Nat.not_lt_zero _)
    | succ fuel ih =>
      intro ts short
      apply recognizesCongr (fun t ks as => separatedUnfold.symm)
      apply recognizesBind (each ts)
      intro a used rest split _
      apply recognizesCongr _
        (recognizesBranch (q := fun _ => pure [a]) token _ (recognizesPure [a] rest))
      · exact image (a :: ·) (SeparatedBefore sep L)
      · intro t ks as
        constructor
        · intro reads
          obtain ⟨js, rfl, more, after, rfl⟩ | ⟨stops, rfl, rfl⟩ := reads
          · exact .inr ⟨js, more, rfl, rfl, after⟩
          · exact .inl ⟨rfl, rfl, stops⟩
        · intro reads
          obtain ⟨rfl, rfl, stops⟩ | ⟨js, more, rfl, rfl, after⟩ := reads
          · exact .inr ⟨stops, rfl, rfl⟩
          · exact .inl ⟨js, rfl, more, after, rfl⟩
      · intro x tail here
        have shorter : tail.length < fuel := by
          have total := congrArg List.length split
          simp only [here, List.length_append, List.length_cons] at total
          omega
        exact recognizesMapAt (ih tail shorter) (a :: ·)
  intro ts
  exact (recognizesAtCongr rfl).mp (bounded (ts.length + 1) ts (Nat.lt_succ_self _))

/-- An optional part of the input: `absence` stands for it where its keyword is not seen. -/
def clause (kw : κ) (body : Parser σ ε α) (absence : α) : Parser σ ε α := do
  let t ← peek
  if t = kw then
    let _ ← bump
    body
  else pure absence

theorem recognizesClause {kw : κ} {body : Parser σ ε α} {absence : α} {LB : Lookahead κ α}
    {LR : Lookahead κ β} {k : α → Parser σ ε γ} {f : α → β → γ} (token : kw ≠ eof σ)
    (part : Recognizes body LB) (rest : ∀ a, Recognizes (k a) (LR.image (f a))) :
    Recognizes (clause kw body absence >>= k)
      (image (fun both => f both.1 both.2) (ClauseBefore kw LB absence LR)) := by
  intro ts
  have opened := recognizesBranch (q := fun _ => pure absence) token (fun _ tail _ => part tail)
    (recognizesPure absence ts)
  apply recognizesCongr _ (recognizesBind opened (fun a _ more _ _ => rest a more))
  intro t ks c
  constructor
  · intro h
    obtain ⟨left, right, a, rfl, here, b, after, rfl⟩ := h
    obtain ⟨js, rfl, here⟩ | ⟨other, rfl, rfl⟩ := here
    · exact ⟨(a, b), .present here after, rfl⟩
    · exact ⟨(absence, b), .absent after other, rfl⟩
  · intro h
    obtain ⟨both, reads, rfl⟩ := h
    cases reads with
    | absent after other => exact ⟨[], ks, absence, rfl, .inr ⟨other, rfl, rfl⟩, _, after, rfl⟩
    | present here after => exact ⟨_, _, _, rfl, .inl ⟨_, rfl, here⟩, _, after, rfl⟩

end Recognition

end Recognizer
