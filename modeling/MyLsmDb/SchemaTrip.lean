import MyLsmDb.Schema

/-! What the text of a schema loses: names that are empty or have a blank other than the
space, indexes over no field, and names that share an id. -/
namespace MyLsmDb
open OrderedEntries (OrderedMap)
open Registry
open Text

section Names

/-- One character of a name, as it is written. -/
def escapeChar (c : Char) : Chars :=
  if c = '%' then ['%', '2', '5'] else if c = ' ' then ['%', '2', '0'] else [c]

theorem escapeEach (s : Chars) : escape s = s.flatMap escapeChar := by
  rw [escape, replaceChar, replaceChar, List.flatMap_assoc]
  refine List.flatMap_congr (fun c _ => ?_)
  unfold escapeChar
  by_cases percent : c = '%'
  · subst percent
    rfl
  · by_cases blank : c = ' '
    · subst blank
      rfl
    · simp [percent, blank]

theorem replaceOther {code to_ rest : Chars} {c : Char} (differ : c ≠ '%') :
    replace ('%' :: code) to_ (c :: rest) = c :: replace ('%' :: code) to_ rest :=
  replaceSkip (by simp [List.isPrefixOf, Ne.symm differ])

/-- The blanks come back first, with every percent sign still written as two digits. -/
theorem blanksBack (s : Chars) : replace ['%', '2', '0'] [' '] (s.flatMap escapeChar) =
    s.flatMap (fun c => if c = '%' then ['%', '2', '5'] else [c]) := by
  induction s with
  | nil => rfl
  | cons c s ih =>
    rw [List.flatMap_cons, List.flatMap_cons, ← ih]
    by_cases percent : c = '%'
    · subst percent
      change replace _ _ ('%' :: '2' :: '5' :: s.flatMap escapeChar) = _
      have two : '2' ≠ '%' := by decide
      have five : '5' ≠ '%' := by decide
      rw [replaceSkip (by rfl), replaceOther two, replaceOther five]
      rfl
    · by_cases blank : c = ' '
      · subst blank
        exact replaceHit (List.cons_ne_nil _ _) _
      · have written : escapeChar c = [c] := by simp [escapeChar, percent, blank]
        rw [written, if_neg percent]
        exact replaceOther percent

theorem unescapeEscape (s : Chars) : unescape (escape s) = s := by
  rw [unescape, escapeEach, blanksBack]
  induction s with
  | nil => rfl
  | cons c s ih =>
    rw [List.flatMap_cons]
    by_cases percent : c = '%'
    · subst percent
      rw [if_pos rfl, replaceHit (List.cons_ne_nil _ _), ih]
      rfl
    · rw [if_neg percent, List.singleton_append]
      exact (replaceOther percent).trans (congrArg _ ih)

def Named (name : Chars) : Prop := name ≠ [] ∧ ∀ c ∈ name, isWhitespace c = true → c = ' '

theorem Named.plain {name : Chars} (h : Named name) : Plain (escape name) := by
  intro c m
  rw [escapeEach] at m
  obtain ⟨d, md, m⟩ := List.mem_flatMap.mp m
  have percent : Plain ['%', '2', '5'] := by simp [Plain, isWhitespace]
  have blank : Plain ['%', '2', '0'] := by simp [Plain, isWhitespace]
  unfold escapeChar at m
  split at m
  · exact percent c m
  · split at m
    · exact blank c m
    · rename_i other
      cases List.mem_singleton.mp m
      cases space : isWhitespace c with
      | false => rfl
      | true => exact absurd (h.2 c md space) other

theorem Named.some_ {name : Chars} (h : Named name) : escape name ≠ [] :=
  replaceSome (replaceSome h.1 (List.cons_ne_nil _ _)) (List.cons_ne_nil _ _)

theorem unescapeNamed {word : Chars} (plain : Plain word) (some_ : word ≠ []) :
    Named (unescape word) := by
  refine ⟨replaceSome (replaceSome some_ (List.cons_ne_nil _ _)) (List.cons_ne_nil _ _), ?_⟩
  intro c m space
  rcases replaceMem m with m | m
  · cases List.mem_singleton.mp m
    exact absurd space (by decide)
  · rcases replaceMem m with m | m
    · exact List.mem_singleton.mp m
    · exact absurd space (by simp [plain c m])

end Names

namespace Schema

theorem numberId (missing bad : String) (id : UInt32) (rest : List Chars) :
    number missing bad (decimal id.toNat :: rest) = .ok (id, rest) := by
  simp only [number, parseDecimalText id.toNat_lt, UInt32.ofNat_toNat]
  rfl

theorem fieldsIds (ids : List UInt32) : fields (decimals ids) = .ok ids := by
  induction ids with
  | nil => rfl
  | cons id ids ih =>
    have tail : decimals (id :: ids) = decimal id.toNat :: decimals ids := rfl
    simp only [tail, fields, parseDecimalText id.toNat_lt, ih, UInt32.ofNat_toNat]
    rfl

theorem fromCodeCode (status : IndexStatus) : IndexStatus.fromCode status.code = .ok status := by
  cases status
  · exact if_pos rfl
  · exact (if_neg (by decide)).trans (if_pos rfl)

theorem loadIndexSome {ids : List UInt32} (some_ : ids ≠ []) (short : ids.length < 2 ^ 64)
    (status : IndexStatus) :
    loadIndex (status.code :: decimal ids.length :: decimals ids) = .ok (ids, status) := by
  cases ids with
  | nil => exact absurd rfl some_
  | cons id ids =>
    have tail : decimals (id :: ids) = decimal id.toNat :: decimals ids := rfl
    have count : (decimals (id :: ids)).length = (id :: ids).length := by simp [decimals]
    rw [tail, loadIndex, ← tail, fromCodeCode]
    · simp only [bind, Except.bind, parseDecimalText short, count, ne_eq, not_true, if_false,
        fieldsIds]
      rfl
    · exact fun none => nomatch none

/-- With no field the line looks like an old one, and its first word is not a number. -/
theorem loadIndexNone (status : IndexStatus) :
    ∃ e, loadIndex [status.code, decimal 0] = .error e := by
  cases status <;> exact ⟨_, rfl⟩

def indexHead (i : IndexDef) : List Chars :=
  [['I', 'X'], decimal i.id.toNat, decimal i.collectionId.toNat, i.status.code,
    decimal i.fieldIds.length]

def indexWords (i : IndexDef) : List Chars := indexHead i ++ decimals i.fieldIds

def wordLines (s : Schema) : List (List Chars) :=
  [[['N', 'C'], decimal s.nextCollectionId.toNat], [['N', 'F'], decimal s.nextFieldId.toNat]] ++
    s.collectionName.entries.map collectionLine ++ s.fieldName.entries.map fieldLine ++
    [[['N', 'I'], decimal s.nextIndexId.toNat]] ++ s.sortedIndexes.map indexWords

theorem headPlain (i : IndexDef) : ∀ w ∈ indexHead i, Plain w ∧ w ≠ [] := by
  have ix : Plain ['I', 'X'] := by simp [Plain, isWhitespace]
  have code : Plain i.status.code ∧ i.status.code ≠ [] := by
    cases i.status <;> simp [IndexStatus.code, Plain, isWhitespace]
  simp [indexHead, ix, code, decimalPlain, decimalSome]

theorem idsPlain (i : IndexDef) : ∀ w ∈ indexWords i, Plain w ∧ w ≠ [] := by
  intro w m
  rcases List.mem_append.mp m with m | m
  · exact headPlain i w m
  · obtain ⟨f, _, rfl⟩ := List.mem_map.mp m
    exact ⟨decimalPlain _, decimalSome _⟩

theorem tokensIndex (i : IndexDef) :
    (∀ c ∈ joinSpace (indexLine i), c ≠ '\n' ∧ c ≠ '\r') ∧
      tokens (joinSpace (indexLine i)) = indexWords i := by
  have line : indexLine i = indexHead i ++ [joinSpace (decimals i.fieldIds)] := rfl
  by_cases none : i.fieldIds = []
  · have bare : indexWords i = indexHead i := by simp [indexWords, none, decimals]
    have last : joinSpace (decimals i.fieldIds) = [] := by simp [none, decimals, joinSpace]
    have plain : ∀ w ∈ indexHead i ++ [[]], Plain w := by
      intro w m
      rcases List.mem_append.mp m with m | m
      · exact (headPlain i w m).1
      · cases List.mem_singleton.mp m
        exact fun _ mc => (List.not_mem_nil mc).elim
    rw [line, last, bare]
    refine ⟨joinPlain plain, ?_⟩
    rw [tokensJoinSome plain, List.filter_append,
      List.filter_eq_self.mpr (fun w m => by simpa using (headPlain i w m).2)]
    exact List.append_nil _
  · have some_ : decimals i.fieldIds ≠ [] := by simpa [decimals] using none
    rw [line, joinNested _ some_]
    exact ⟨joinPlain (fun w m => (idsPlain i w m).1),
      tokensJoin (fun w m => (idsPlain i w m).1) (fun w m => (idsPlain i w m).2)⟩

/-- The line `ws` of the text is read as the words `v`. -/
def ReadsAs (ws v : List Chars) : Prop :=
  (∀ c ∈ joinSpace ws, c ≠ '\n' ∧ c ≠ '\r') ∧ tokens (joinSpace ws) = v

theorem readsSame {ws : List Chars} (plain : ∀ w ∈ ws, Plain w ∧ w ≠ []) : ReadsAs ws ws :=
  ⟨joinPlain (fun w m => (plain w m).1),
    tokensJoin (fun w m => (plain w m).1) (fun w m => (plain w m).2)⟩

structure NamesHeld (s : Schema) : Prop where
  collections : ∀ e ∈ s.collectionName.entries, Named e.2
  fields : ∀ e ∈ s.fieldName.entries, Named e.2

theorem readsLines {s : Schema} (named : NamesHeld s) :
    List.Forall₂ ReadsAs s.savedLines s.wordLines := by
  have counter : ∀ (word : Chars) (n : Nat), Plain word → word ≠ [] →
      ReadsAs [word, decimal n] [word, decimal n] := by
    intro word n plain some_
    exact readsSame (by simp [plain, some_, decimalPlain, decimalSome])
  have collection : ∀ e ∈ s.collectionName.entries, ReadsAs (collectionLine e) (collectionLine e) := by
    intro e m
    have key : Plain ['C'] := by simp [Plain, isWhitespace]
    have name := named.collections e m
    exact readsSame (by simp [collectionLine, key, decimalPlain, decimalSome, name.plain, name.some_])
  have field : ∀ e ∈ s.fieldName.entries, ReadsAs (fieldLine e) (fieldLine e) := by
    intro e m
    have key : Plain ['F'] := by simp [Plain, isWhitespace]
    have name := named.fields e m
    exact readsSame (by simp [fieldLine, key, decimalPlain, decimalSome, name.plain, name.some_])
  have each : ∀ {α : Type} {f g : α → List Chars} {l : List α}, (∀ x ∈ l, ReadsAs (f x) (g x)) →
      List.Forall₂ ReadsAs (l.map f) (l.map g) := fun h =>
    List.forall₂_map_left_iff.mpr (List.forall₂_map_right_iff.mpr (List.forall₂_same.mpr h))
  have nc : Plain ['N', 'C'] := by simp [Plain, isWhitespace]
  have nf : Plain ['N', 'F'] := by simp [Plain, isWhitespace]
  have ni : Plain ['N', 'I'] := by simp [Plain, isWhitespace]
  have first := List.Forall₂.cons (counter _ s.nextCollectionId.toNat nc (by simp))
    (List.Forall₂.cons (counter _ s.nextFieldId.toNat nf (by simp)) .nil)
  have last := List.Forall₂.cons (counter _ s.nextIndexId.toNat ni (by simp)) .nil
  exact List.rel_append (List.rel_append (List.rel_append (List.rel_append first (each collection))
    (each field)) last) (each (fun i _ => tokensIndex i))

theorem readsAll {all vs : List (List Chars)} (h : List.Forall₂ ReadsAs all vs) :
    (lines (all.flatMap (fun words => joinSpace words ++ ['\n']))).map tokens = vs := by
  have ended : ∀ ws ∈ all, ∀ c ∈ joinSpace ws, c ≠ '\n' ∧ c ≠ '\r' := by
    induction h with
    | nil => exact fun _ m => nomatch m
    | cons first _ ih =>
      intro ws m
      rcases List.mem_cons.mp m with rfl | m
      · exact first.1
      · exact ih ws m
  rw [linesSaved ended, List.map_map]
  clear ended
  induction h with
  | nil => rfl
  | cons first _ ih => rw [List.map_cons, ih, Function.comp_apply, first.2]

theorem loadSaved {s : Schema} (named : NamesHeld s) :
    load (some s.save) = s.wordLines.foldlM loadLine new := by
  have words : (lines s.save).map tokens = s.wordLines := readsAll (readsLines named)
  rw [← words, List.foldlM_map]
  rfl

theorem loadCollections {l : List (UInt32 × Chars)} (named : ∀ e ∈ l, Named e.2) (s : Schema) :
    (l.map collectionLine).foldlM loadLine s = .ok { s with
      collectionName := fill l s.collectionName
      collectionIdOf := fill (l.map Prod.swap) s.collectionIdOf } := by
  induction l generalizing s with
  | nil => rfl
  | cons e l ih =>
    have line : loadLine s (collectionLine e) = .ok { s with
        collectionName := s.collectionName.insert e.1 e.2
        collectionIdOf := s.collectionIdOf.insert e.2 e.1 } := by
      simp only [loadLine, collectionLine]
      rw [if_neg (by decide), if_neg (by decide), if_pos trivial]
      simp only [numberId, Manifest.word, bind, Except.bind, pure, Except.pure, unescapeEscape]
    rw [List.map_cons, List.foldlM_cons, line]
    change List.foldlM loadLine _ _ = _
    rw [ih (fun x m => named x (List.mem_cons_of_mem _ m))]
    rfl

/-- The entry of the one field map as an entry of the other. -/
def flipField : (UInt32 ×ₗ UInt32) × Chars ≃ (UInt32 ×ₗ Chars) × UInt32 where
  toFun e := (toLex ((ofLex e.1).1, e.2), (ofLex e.1).2)
  invFun e := (toLex ((ofLex e.1).1, e.2), (ofLex e.1).2)
  left_inv _ := rfl
  right_inv _ := rfl

theorem loadFields {l : List ((UInt32 ×ₗ UInt32) × Chars)} (named : ∀ e ∈ l, Named e.2)
    (s : Schema) :
    (l.map fieldLine).foldlM loadLine s = .ok { s with
      fieldName := fill l s.fieldName
      fieldIdOf := fill (l.map flipField) s.fieldIdOf } := by
  induction l generalizing s with
  | nil => rfl
  | cons e l ih =>
    have line : loadLine s (fieldLine e) = .ok { s with
        fieldName := s.fieldName.insert e.1 e.2
        fieldIdOf := s.fieldIdOf.insert (flipField e).1 (flipField e).2 } := by
      simp only [loadLine, fieldLine]
      rw [if_neg (by decide), if_neg (by decide), if_neg (by decide), if_pos trivial]
      simp only [numberId, Manifest.word, bind, Except.bind, pure, Except.pure, unescapeEscape]
      rfl
    rw [List.map_cons, List.foldlM_cons, line]
    change List.foldlM loadLine _ _ = _
    rw [ih (fun x m => named x (List.mem_cons_of_mem _ m))]
    rfl

theorem loadIndexes {l : List IndexDef} (some_ : ∀ i ∈ l, i.fieldIds ≠ [])
    (short : ∀ i ∈ l, i.fieldIds.length < 2 ^ 64) (s : Schema) :
    (l.map indexWords).foldlM loadLine s = .ok { s with indexes := s.indexes ++ l } := by
  induction l generalizing s with
  | nil => simp [pure, Except.pure]
  | cons i l ih =>
    have line : loadLine s (indexWords i) = .ok { s with indexes := s.indexes ++ [i] } := by
      simp only [loadLine, indexWords, indexHead, List.cons_append, List.nil_append]
      rw [if_neg (by decide), if_neg (by decide), if_neg (by decide), if_neg (by decide),
        if_neg (by decide), if_pos trivial]
      simp only [numberId, loadIndexSome (some_ i List.mem_cons_self)
        (short i List.mem_cons_self), bind, Except.bind, pure, Except.pure]
    rw [List.map_cons, List.foldlM_cons, line]
    change List.foldlM loadLine _ _ = _
    rw [ih (fun x m => some_ x (List.mem_cons_of_mem _ m))
      (fun x m => short x (List.mem_cons_of_mem _ m))]
    simp

theorem loadNoField {i : IndexDef} (none : i.fieldIds = []) (s : Schema) :
    ∃ e, loadLine s (indexWords i) = .error e := by
  obtain ⟨e, fails⟩ := loadIndexNone i.status
  refine ⟨e, ?_⟩
  simp only [loadLine, indexWords, indexHead, none, decimals, List.map_nil, List.append_nil]
  rw [if_neg (by decide), if_neg (by decide), if_neg (by decide), if_neg (by decide),
    if_neg (by decide), if_pos trivial]
  simp only [numberId, List.length_nil, fails, bind, Except.bind]

section Names

theorem numberRest {missing bad : String} {words rest : List Chars} {id : UInt32}
    (run : number missing bad words = .ok (id, rest)) : rest ⊆ words := by
  cases words with
  | nil => cases run
  | cons w words =>
    simp only [number] at run
    split at run
    · cases run
      exact List.subset_cons_self _ _
    · cases run

theorem wordMem {missing : String} {words rest : List Chars} {w : Chars}
    (run : Manifest.word missing words = .ok (w, rest)) : w ∈ words := by
  cases words with
  | nil => cases run
  | cons v words =>
    cases run
    exact List.mem_cons_self

theorem loadLineNames {s s' : Schema} {words : List Chars} (held : NamesHeld s)
    (plain : ∀ w ∈ words, Plain w ∧ w ≠ []) (run : loadLine s words = .ok s') : NamesHeld s' := by
  cases words with
  | nil =>
    cases run
    exact held
  | cons key words =>
    have named : ∀ w ∈ words, Named (unescape w) := fun w m =>
      unescapeNamed (plain w (List.mem_cons_of_mem _ m)).1 (plain w (List.mem_cons_of_mem _ m)).2
    simp only [loadLine] at run
    split at run
    · obtain ⟨_, -, run⟩ := bindOk run
      cases run
      exact ⟨held.collections, held.fields⟩
    split at run
    · obtain ⟨_, -, run⟩ := bindOk run
      cases run
      exact ⟨held.collections, held.fields⟩
    split at run
    · obtain ⟨⟨id, rest⟩, number, run⟩ := bindOk run
      obtain ⟨⟨name, _⟩, word, run⟩ := bindOk run
      cases run
      refine ⟨fun e m => ?_, held.fields⟩
      rcases OrderedEntries.insertMem m with rfl | m
      · exact named name (numberRest number (wordMem word))
      · exact held.collections e m
    split at run
    · obtain ⟨⟨c, rest⟩, number, run⟩ := bindOk run
      obtain ⟨⟨f, rest'⟩, number', run⟩ := bindOk run
      obtain ⟨⟨name, _⟩, word, run⟩ := bindOk run
      cases run
      refine ⟨held.collections, fun e m => ?_⟩
      rcases OrderedEntries.insertMem m with rfl | m
      · exact named name (numberRest number (numberRest number' (wordMem word)))
      · exact held.fields e m
    split at run
    · obtain ⟨_, -, run⟩ := bindOk run
      cases run
      exact ⟨held.collections, held.fields⟩
    split at run
    · obtain ⟨_, -, run⟩ := bindOk run
      obtain ⟨_, -, run⟩ := bindOk run
      obtain ⟨_, -, run⟩ := bindOk run
      cases run
      exact ⟨held.collections, held.fields⟩
    · cases run
      exact held

theorem loadNames {text : Option Chars} {s : Schema} (run : load text = .ok s) : NamesHeld s := by
  have empty : NamesHeld new := ⟨(fun _ m => nomatch m), (fun _ m => nomatch m)⟩
  cases text with
  | none =>
    cases run
    exact empty
  | some text =>
    simp only [load] at run
    generalize lines text = ls at run
    generalize new = s₀ at empty run
    induction ls generalizing s₀ with
    | nil =>
      cases run
      exact empty
    | cons line ls ih =>
      rw [List.foldlM_cons] at run
      obtain ⟨s₁, first, run⟩ := bindOk run
      exact ih s₁ (loadLineNames empty (tokensPlain line) first) run

end Names

section Trips

inductive Call where
  | collectionId (name : Chars)
  | fieldId (collection : UInt32) (name : Chars)
  | createIndex (collection field : UInt32)
  | createCompositeIndex (collection : UInt32) (fieldIds : List UInt32)
  | setIndexReady (indexId : UInt32)
  | dropIndex (indexId : UInt32)
  | save

def Call.run (s : Schema) : Call → Schema
  | collectionId name => (s.collectionId name).2
  | fieldId collection name => (s.fieldId collection name).2
  | createIndex collection field => (s.createIndex collection field).2
  | createCompositeIndex collection fieldIds => (s.createCompositeIndex collection fieldIds).2
  | setIndexReady indexId => s.setIndexReady indexId
  | dropIndex indexId => s.dropIndex indexId
  | save => s.saved

/-- A list of fields is no longer than a list can be in memory. -/
def Call.Sized : Call → Prop
  | createCompositeIndex _ fieldIds => fieldIds.length < 2 ^ 64
  | _ => True

/-- The schemas the calls lead to. -/
inductive Reached : Schema → Prop
  | new : Reached new
  | call {s : Schema} (c : Call) : Reached s → c.Sized → Reached (c.run s)

structure Kept (s : Schema) : Prop where
  collections : Listed (Equiv.prodComm UInt32 Chars) s.collectionName s.collectionIdOf
  fields : Listed flipField s.fieldName s.fieldIdOf
  short : ∀ i ∈ s.indexes, i.fieldIds.length < 2 ^ 64

theorem keptComposite {s : Schema} (h : Kept s) (collection : UInt32) {fieldIds : List UInt32}
    (short : fieldIds.length < 2 ^ 64) : Kept (s.createCompositeIndex collection fieldIds).2 := by
  unfold createCompositeIndex
  split
  · exact h
  · refine ⟨h.collections, h.fields, fun i m => ?_⟩
    rcases List.mem_append.mp m with m | m
    · exact h.short i m
    · cases List.mem_singleton.mp m
      exact short

theorem readyMem {indexId : UInt32} {l : List IndexDef} {i : IndexDef}
    (m : i ∈ readyFirst indexId l) : ∃ j ∈ l, i.fieldIds = j.fieldIds := by
  induction l with
  | nil => cases m
  | cons x l ih =>
    rw [readyFirst] at m
    split at m
    · rcases List.mem_cons.mp m with rfl | m
      · exact ⟨x, List.mem_cons_self, rfl⟩
      · exact ⟨i, List.mem_cons_of_mem _ m, rfl⟩
    · rcases List.mem_cons.mp m with rfl | m
      · exact ⟨i, List.mem_cons_self, rfl⟩
      · obtain ⟨j, mj, same⟩ := ih m
        exact ⟨j, List.mem_cons_of_mem _ mj, same⟩

theorem Reached.kept {s : Schema} (h : Reached s) : Kept s := by
  induction h with
  | new => exact ⟨listedEmpty, listedEmpty, fun _ m => nomatch m⟩
  | @call s c _ sized ih =>
    cases c with
    | collectionId name =>
      change Kept (s.collectionId name).2
      unfold collectionId
      split
      · exact ih
      · rename_i absent
        exact ⟨ih.collections.insert (e := (s.nextCollectionId, name)) absent, ih.fields, ih.short⟩
    | fieldId collection name =>
      change Kept (s.fieldId collection name).2
      unfold fieldId
      split
      · exact ih
      · rename_i absent
        exact ⟨ih.collections, ih.fields.insert (e := (toLex (collection, s.nextFieldId), name)) absent, ih.short⟩
    | createIndex collection field =>
      exact keptComposite ih collection (by simp)
    | createCompositeIndex collection fieldIds => exact keptComposite ih collection sized
    | setIndexReady indexId =>
      change Kept (s.setIndexReady indexId)
      unfold setIndexReady
      split
      · exact ih
      · split
        · refine ⟨ih.collections, ih.fields, fun i m => ?_⟩
          obtain ⟨j, mj, same⟩ := readyMem m
          rw [same]
          exact ih.short j mj
        · exact ih
    | dropIndex indexId =>
      exact ⟨ih.collections, ih.fields, fun i m => ih.short i (List.mem_of_mem_filter m)⟩
    | save => exact ⟨ih.collections, ih.fields, ih.short⟩

/-- The text of a schema gives back its maps, its next ids and its indexes. -/
def RoundTrips (s : Schema) : Prop :=
  ∃ s', load (some s.save) = .ok s' ∧
    s'.collectionName = s.collectionName ∧ s'.collectionIdOf = s.collectionIdOf ∧
    s'.fieldName = s.fieldName ∧ s'.fieldIdOf = s.fieldIdOf ∧
    s'.nextCollectionId = s.nextCollectionId ∧ s'.nextFieldId = s.nextFieldId ∧
    s'.nextIndexId = s.nextIndexId ∧ s'.indexes.Perm s.indexes

structure Apart (s : Schema) : Prop where
  collections : Unshared (Equiv.prodComm UInt32 Chars) s.collectionName s.collectionIdOf
  fields : Unshared flipField s.fieldName s.fieldIdOf

def Indexed (s : Schema) : Prop := ∀ i ∈ s.indexes, i.fieldIds ≠ []

theorem loadNamed {s : Schema} (kept : Kept s) (named : NamesHeld s) (indexed : Indexed s) :
    load (some s.save) = .ok { s with
      collectionIdOf := fill (s.collectionName.entries.map Prod.swap) .empty
      fieldIdOf := fill (s.fieldName.entries.map flipField) .empty
      changed := false
      indexes := s.sortedIndexes } := by
  have sorted : ∀ i ∈ s.sortedIndexes, i ∈ s.indexes := fun i m =>
    (List.perm_insertionSort _ _).mem_iff.mp m
  have counters : ∀ t : Schema, [[['N', 'C'], decimal s.nextCollectionId.toNat],
      [['N', 'F'], decimal s.nextFieldId.toNat]].foldlM loadLine t = .ok { t with
        nextCollectionId := s.nextCollectionId, nextFieldId := s.nextFieldId } := by
    intro t
    simp [loadLine, numberId, bind, Except.bind, pure, Except.pure]
  have counter : ∀ t : Schema, [[['N', 'I'], decimal s.nextIndexId.toNat]].foldlM loadLine t =
      .ok { t with nextIndexId := s.nextIndexId } := by
    intro t
    simp [loadLine, numberId, bind, Except.bind, pure, Except.pure]
  rw [loadSaved named, wordLines]
  simp only [List.foldlM_append, counters, counter, bind, Except.bind,
    loadCollections named.collections, loadFields named.fields,
    loadIndexes (fun i m => indexed i (sorted i m)) (fun i m => kept.short i (sorted i m))]
  simp only [new, fillEntries, List.nil_append]

/-- A schema's text gives the schema back unless a name is lost in it, an index is over no
field, or two names share an id. -/
theorem schemaTrips : ∀ s, Reached s →
    (RoundTrips s ↔ NamesHeld s ∧ Indexed s ∧ Apart s) := by
  intro s reached
  have kept := reached.kept
  have flipped := fillFlipped kept.collections
  have flippedFields := fillFlipped kept.fields
  constructor
  · rintro ⟨s', run, names, ids, fields, fieldIds, -⟩
    have named : NamesHeld s := by
      have held := loadNames run
      refine ⟨?_, ?_⟩
      · rw [← names]
        exact held.collections
      · rw [← fields]
        exact held.fields
    have indexed : Indexed s := by
      intro i m none
      rw [loadSaved named] at run
      have line : indexWords i ∈ s.wordLines :=
        List.mem_append_right _ (List.mem_map_of_mem ((List.perm_insertionSort _ _).mem_iff.mpr m))
      obtain ⟨t, t', read⟩ := Manifest.foldEach run _ line
      obtain ⟨e, fails⟩ := loadNoField none t
      rw [fails] at read
      cases read
    rw [loadNamed kept named indexed] at run
    cases run
    exact ⟨named, indexed, flipped.mp ids, flippedFields.mp fieldIds⟩
  · rintro ⟨named, indexed, apart⟩
    exact ⟨_, loadNamed kept named indexed, rfl, flipped.mpr apart.collections, rfl,
      flippedFields.mpr apart.fields, rfl, rfl, rfl, List.perm_insertionSort _ _⟩

theorem schemaTripsIndexed : ∃ s, Reached s ∧ s.collectionName.entries = [(0, [' ', '%'])] ∧
    s.indexes = [⟨0, 0, [7, 3], .building⟩] ∧ RoundTrips s := by
  have named := Reached.call (.collectionId [' ', '%']) .new trivial
  have reached := Reached.call (.createCompositeIndex 0 [7, 3]) named
    (by simp [Call.Sized])
  refine ⟨_, reached, rfl, rfl, (schemaTrips _ reached).mpr ⟨⟨?_, fun _ m => nomatch m⟩, ?_, ?_, ?_⟩⟩
  · intro e m
    cases List.mem_singleton.mp m
    simp [Named, isWhitespace]
  · intro i m
    cases List.mem_singleton.mp m
    exact List.cons_ne_nil _ _
  · intro e m
    cases List.mem_singleton.mp m
    exact List.mem_singleton.mpr rfl
  · exact fun _ m => nomatch m

/-- A collection whose name is empty. -/
theorem emptyNameLost : ¬ ∀ s, Reached s → RoundTrips s := by
  intro claim
  obtain ⟨s', run, names, -⟩ := claim _ (.call (.collectionId []) .new trivial)
  have entry : ((0 : UInt32), ([] : Chars)) ∈ s'.collectionName.entries := by
    rw [names]
    exact List.mem_singleton.mpr rfl
  exact ((loadNames run).collections _ entry).1 rfl

end Trips
end Schema
end MyLsmDb
