import MyLsmDb.Records
import MyLsmDb.Text

/-! The manifest: which tables are in level 0, which segments level 1 has with their key
ranges, and the next table id. It is stored as lines of words. -/
namespace MyLsmDb
open ByteOrder (Bytes)
open Text

structure SegmentMeta where
  fileId : Nat
  minKey : Bytes
  maxKey : Bytes
  records : Nat
  deriving DecidableEq, Repr

structure Manifest where
  levels : List (List Nat)
  segments : List SegmentMeta
  nextTableId : Nat
  deriving DecidableEq, Repr

def invalidFormat {α : Type} (what : String) : Fallible α := throw (.error (.invalidFormat what))

def hexDecodeLoop (at_ : Nat) : Chars → Fallible Bytes
  | hi :: lo :: rest =>
    match hexValue hi, hexValue lo with
    | some h, some l => do return UInt8.ofNat (h * 16 + l) :: (← hexDecodeLoop (at_ + 2) rest)
    | none, _ => invalidFormat s!"segment hex range bad char at {at_}"
    | _, none => invalidFormat s!"segment hex range bad char at {at_ + 1}"
  | _ => pure []

def hexDecode (s : Chars) : Fallible Bytes :=
  if s.length % 2 ≠ 0 then invalidFormat "segment hex range odd length" else hexDecodeLoop 0 s

namespace Manifest

def new : Manifest := ⟨[], [], 1⟩

def allIds (m : Manifest) : List Nat := m.levels.flatten ++ m.segments.map SegmentMeta.fileId

def validateWindows : List SegmentMeta → Fallible Unit
  | a :: b :: rest =>
    if b.minKey ≤ a.minKey then invalidFormat "manifest segments not strictly sorted by min_key"
    else if b.minKey ≤ a.maxKey then invalidFormat "manifest segments overlap (not disjoint)"
    else validateWindows (b :: rest)
  | _ => pure ()

def validate (m : Manifest) : Fallible Unit := do
  validateWindows m.segments
  if m.segments.any (fun s => decide (s.maxKey < s.minKey)) then
    invalidFormat "manifest segment min_key > max_key"
  -- the ids sorted, two equal neighbours
  if ¬ m.allIds.Nodup then invalidFormat "manifest duplicate table id"

def number (missing bad : String) : List Chars → Fallible (Nat × List Chars)
  | [] => invalidFormat missing
  | w :: rest =>
    match parseDecimal (2 ^ 64) w with
    | some n => pure (n, rest)
    | none => invalidFormat bad

def word (missing : String) : List Chars → Fallible (Chars × List Chars)
  | [] => invalidFormat missing
  | w :: rest => pure (w, rest)

def numbers : List Chars → Fallible (List Nat)
  | [] => pure []
  | w :: rest => do
    match parseDecimal (2 ^ 64) w with
    | some n => return n :: (← numbers rest)
    | none => invalidFormat s!"manifest L id {String.ofList w}"

def setLevel (levels : List (List Nat)) (level : Nat) (ids : List Nat) : List (List Nat) :=
  (levels ++ List.replicate (level + 1 - levels.length) []).set level ids

def loadLine (m : Manifest) (words : List Chars) : Fallible Manifest :=
  match words with
  | [] => pure m
  | key :: rest =>
    if key = ['N'] then do
      let (id, _) ← number "manifest N line" "manifest id" rest
      return { m with nextTableId := id }
    else if key = ['L'] then do
      let (level, rest) ← number "manifest L level" "manifest level" rest
      let ids ← numbers rest
      return { m with levels := setLevel m.levels level ids }
    else if key = ['S'] then do
      let (_, rest) ← number "manifest S level" "manifest S level" rest
      let (fileId, rest) ← number "manifest S id" "manifest S id" rest
      let (minHex, rest) ← word "manifest S min" rest
      let (maxHex, rest) ← word "manifest S max" rest
      let (records, _) ← number "manifest S records" "manifest S records" rest
      let minKey ← hexDecode minHex
      let maxKey ← hexDecode maxHex
      return { m with segments := m.segments ++ [⟨fileId, minKey, maxKey, records⟩] }
    else pure m

def load (text : Option Chars) : Fallible Manifest :=
  match text with
  | none => pure new
  | some text => do
    let m ← (lines text).foldlM (fun m line => loadLine m (tokens line)) new
    m.validate
    return m

def segmentLine (s : SegmentMeta) : List Chars :=
  [['S'], ['1'], decimal s.fileId, hexEncode s.minKey, hexEncode s.maxKey, decimal s.records]

def levelLines (levels : List (List Nat)) : List (List Chars) :=
  (levels.zipIdx.filter (fun l => !l.1.isEmpty)).map
    (fun l => ['L'] :: decimal l.2 :: l.1.map decimal)

def savedLines (m : Manifest) : List (List Chars) :=
  [['N'], decimal m.nextTableId] :: (levelLines m.levels ++ m.segments.map segmentLine)

def save (m : Manifest) : Chars := m.savedLines.flatMap (fun words => joinSpace words ++ ['\n'])

end Manifest

theorem hexDecodeLoopEncoded (bytes : Bytes) (n : Nat) :
    hexDecodeLoop n (hexEncode bytes) = .ok bytes := by
  induction bytes generalizing n with
  | nil => rfl
  | cons b bytes ih =>
    have lt := b.toNat_lt
    have text : hexEncode (b :: bytes) =
        hexDigit (b.toNat / 16) :: hexDigit (b.toNat % 16) :: hexEncode bytes := rfl
    have byte : UInt8.ofNat (b.toNat / 16 * 16 + b.toNat % 16) = b := by
      rw [Nat.div_add_mod', UInt8.ofNat_toNat]
    simp only [text, hexDecodeLoop, hexValueDigit (show b.toNat / 16 < 16 by omega),
      hexValueDigit (show b.toNat % 16 < 16 by omega), ih, byte]
    rfl

theorem hexDecodeEncoded (bytes : Bytes) : hexDecode (hexEncode bytes) = .ok bytes := by
  have even : (hexEncode bytes).length % 2 = 0 := by
    induction bytes with
    | nil => rfl
    | cons b bytes ih =>
      change ((hexEncode bytes).length + 1 + 1) % 2 = 0
      omega
  rw [hexDecode, if_neg (by simp [even]), hexDecodeLoopEncoded]

namespace Manifest

/-- What the segment list of a manifest must be like for `load` to take it. -/
structure Sorted (segments : List SegmentMeta) : Prop where
  ascending : segments.Pairwise (fun a b => a.minKey < b.minKey)
  disjoint : segments.Pairwise (fun a b => a.maxKey < b.minKey)
  ranges : ∀ s ∈ segments, s.minKey ≤ s.maxKey

theorem validateSorted {m : Manifest} (sorted : Sorted m.segments) (ids : m.allIds.Nodup) :
    m.validate = .ok () := by
  have windows : ∀ l : List SegmentMeta, Sorted l → validateWindows l = .ok () := by
    intro l
    induction l with
    | nil => exact fun _ => rfl
    | cons a l ih =>
      intro h
      obtain ⟨a₁, rest₁⟩ := List.pairwise_cons.mp h.ascending
      obtain ⟨a₂, rest₂⟩ := List.pairwise_cons.mp h.disjoint
      have tail := ih ⟨rest₁, rest₂, fun s m => h.ranges s (List.mem_cons_of_mem _ m)⟩
      cases l with
      | nil => rfl
      | cons b l =>
        rw [validateWindows, if_neg (not_le.mpr (a₁ b List.mem_cons_self)),
          if_neg (not_le.mpr (a₂ b List.mem_cons_self)), tail]
  have ranges : m.segments.any (fun s => decide (s.maxKey < s.minKey)) = false :=
    List.any_eq_false.mpr (fun s ms => by simpa using sorted.ranges s ms)
  unfold validate
  simp only [windows _ sorted, ranges, ids, not_true, if_false, Bool.false_eq_true]
  rfl

/-- A manifest whose every number has 64 bits and whose segment keys are not empty. -/
structure Writable (m : Manifest) : Prop where
  next : m.nextTableId < 2 ^ 64
  ids : ∀ id ∈ m.allIds, id < 2 ^ 64
  records : ∀ s ∈ m.segments, s.records < 2 ^ 64
  keys : ∀ s ∈ m.segments, s.minKey ≠ [] ∧ s.maxKey ≠ []

theorem hexSome {bytes : Bytes} (some : bytes ≠ []) : hexEncode bytes ≠ [] := by
  cases bytes with
  | nil => exact absurd rfl some
  | cons b bytes => exact List.cons_ne_nil _ _

theorem numberDecimal (missing bad : String) {n : Nat} (h : n < 2 ^ 64) (rest : List Chars) :
    number missing bad (decimal n :: rest) = .ok (n, rest) := by
  simp only [number, parseDecimalText h]
  rfl

theorem numbersDecimal {ids : List Nat} (h : ∀ id ∈ ids, id < 2 ^ 64) :
    numbers (ids.map decimal) = .ok ids := by
  induction ids with
  | nil => rfl
  | cons id ids ih =>
    simp only [List.map_cons, numbers, parseDecimalText (h id List.mem_cons_self),
      ih (fun i m => h i (List.mem_cons_of_mem _ m))]
    rfl

theorem loadSegment {s : SegmentMeta} (id : s.fileId < 2 ^ 64) (records : s.records < 2 ^ 64)
    (m : Manifest) : loadLine m (segmentLine s) = .ok { m with segments := m.segments ++ [s] } := by
  have one : number "manifest S level" "manifest S level" (['1'] :: [decimal s.fileId,
      hexEncode s.minKey, hexEncode s.maxKey, decimal s.records]) =
      .ok (1, [decimal s.fileId, hexEncode s.minKey, hexEncode s.maxKey, decimal s.records]) :=
    numberDecimal _ _ (n := 1) (by decide) _
  simp only [loadLine, segmentLine]
  rw [if_neg (by decide), if_neg (by decide), if_pos trivial]
  simp only [one, numberDecimal _ _ id, numberDecimal _ _ records, word, hexDecodeEncoded, bind,
    Except.bind, pure, Except.pure]

theorem loadSegments {segments : List SegmentMeta} (id : ∀ s ∈ segments, s.fileId < 2 ^ 64)
    (records : ∀ s ∈ segments, s.records < 2 ^ 64) (m : Manifest) :
    (segments.map segmentLine).foldlM loadLine m =
      .ok { m with segments := m.segments ++ segments } := by
  induction segments generalizing m with
  | nil => simp [pure, Except.pure]
  | cons s segments ih =>
    rw [List.map_cons, List.foldlM_cons, loadSegment (id s List.mem_cons_self)
      (records s List.mem_cons_self)]
    change List.foldlM loadLine _ _ = _
    rw [ih (fun s m => id s (List.mem_cons_of_mem _ m))
      (fun s m => records s (List.mem_cons_of_mem _ m))]
    simp

theorem loadLevel {ids : List Nat} (h : ∀ id ∈ ids, id < 2 ^ 64) (n : Nat) :
    (levelLines [ids]).foldlM loadLine ⟨[], [], n⟩ = .ok ⟨if ids = [] then [] else [ids], [], n⟩ := by
  cases ids with
  | nil => rfl
  | cons id ids =>
    have zero : number "manifest L level" "manifest level"
        (decimal 0 :: (id :: ids).map decimal) = .ok (0, (id :: ids).map decimal) :=
      numberDecimal _ _ (by decide) _
    have line : levelLines [id :: ids] = [['L'] :: decimal 0 :: (id :: ids).map decimal] := rfl
    have run : loadLine ⟨[], [], n⟩ (['L'] :: decimal 0 :: (id :: ids).map decimal) =
        .ok ⟨[id :: ids], [], n⟩ := by
      simp only [loadLine]
      rw [if_neg (by decide), if_pos trivial]
      simp only [zero, numbersDecimal h, bind, Except.bind, pure, Except.pure]
      rfl
    rw [line, List.foldlM_cons, run, if_neg (List.cons_ne_nil _ _)]
    rfl

theorem saveNext {m m' : Manifest} (same : m.save = m'.save) : m.nextTableId = m'.nextTableId := by
  have first : ∀ m : Manifest, (lines m.save).head? = some ('N' :: ' ' :: decimal m.nextTableId) := by
    intro m
    have plain : ∀ c ∈ 'N' :: ' ' :: decimal m.nextTableId, c ≠ '\n' ∧ c ≠ '\r' := by
      have digits : ∀ w ∈ [['N'], decimal m.nextTableId], Plain w := by
        simp only [List.mem_cons, List.not_mem_nil, or_false, forall_eq_or_imp, forall_eq]
        exact ⟨fun c mc => List.mem_singleton.mp mc ▸ by decide, decimalPlain _⟩
      exact joinPlain digits
    have text : m.save = 'N' :: ' ' :: decimal m.nextTableId ++ '\n' ::
        (levelLines m.levels ++ m.segments.map segmentLine).flatMap
          (fun words => joinSpace words ++ ['\n']) := by
      simp [save, savedLines, joinSpace]
    rw [text, linesPlain _ plain, List.head?_cons]
  have lines := first m
  rw [same, first m'] at lines
  injection lines with line
  injection line with _ line
  injection line with _ line
  exact (decimalInjective line).symm

theorem savedPlain (m : Manifest) : ∀ ws ∈ savedLines m, ∀ w ∈ ws, Plain w := by
  have letter : ∀ c, isWhitespace c = false → Plain [c] := fun c h d m =>
    List.mem_singleton.mp m ▸ h
  have n' : Plain ['N'] := letter _ (by decide)
  have l' : Plain ['L'] := letter _ (by decide)
  have s' : Plain ['S'] := letter _ (by decide)
  have one : Plain ['1'] := letter _ (by decide)
  intro ws m
  simp only [savedLines, levelLines, List.mem_cons, List.mem_append, List.mem_map] at m
  rcases m with rfl | ⟨l, _, rfl⟩ | ⟨s, ms, rfl⟩
  · simp [n', decimalPlain]
  · intro v mv
    simp only [List.mem_cons, List.mem_map] at mv
    rcases mv with rfl | rfl | ⟨i, _, rfl⟩
    · exact l'
    · exact decimalPlain _
    · exact decimalPlain _
  · simp [segmentLine, s', one, decimalPlain, hexPlain]

def words (line : List Chars) : List Chars := line.filter (fun w => decide (w ≠ []))

theorem foldSaved (m m₀ : Manifest) :
    (lines (save m)).foldlM (fun m line => loadLine m (tokens line)) m₀ =
      ((savedLines m).map words).foldlM loadLine m₀ := by
  have parsed : (lines (save m)).map tokens = (savedLines m).map words := by
    rw [save, linesSaved (fun ws mem => joinPlain (savedPlain m ws mem)), List.map_map]
    exact List.map_congr_left (fun ws mem => tokensJoinSome (savedPlain m ws mem))
  rw [← parsed, List.foldlM_map]

theorem foldEach {α β : Type} {f : β → α → Fallible β} {l : List α} {b b' : β}
    (run : l.foldlM f b = .ok b') : ∀ x ∈ l, ∃ c c', f c x = .ok c' := by
  induction l generalizing b with
  | nil => simp
  | cons y l ih =>
    rw [List.foldlM_cons] at run
    intro x mem
    cases first : f b y with
    | error e =>
      rw [first] at run
      cases run
    | ok c =>
      rw [first] at run
      rcases List.mem_cons.mp mem with rfl | mem
      · exact ⟨b, c, first⟩
      · exact ih run x mem

theorem numberSome {missing bad : String} {n k : Nat} {rest rest' : List Chars}
    (run : number missing bad (decimal n :: rest) = .ok (k, rest')) : n < 2 ^ 64 ∧ rest' = rest := by
  simp only [number, parseDecimalIf] at run
  by_cases small : n < 2 ^ 64
  · rw [if_pos small] at run
    cases run
    exact ⟨small, rfl⟩
  · rw [if_neg small] at run
    cases run

theorem numbersSome {ids found : List Nat} (run : numbers (ids.map decimal) = .ok found) :
    ∀ id ∈ ids, id < 2 ^ 64 := by
  induction ids generalizing found with
  | nil => simp
  | cons id ids ih =>
    simp only [List.map_cons, numbers, parseDecimalIf] at run
    by_cases small : id < 2 ^ 64
    · rw [if_pos small] at run
      cases rest : numbers (ids.map decimal) with
      | error e =>
        simp only [rest] at run
        cases run
      | ok more =>
        intro i mem
        rcases List.mem_cons.mp mem with rfl | mem
        · exact small
        · exact ih rest i mem
    · rw [if_neg small] at run
      cases run

theorem segmentRest {id : Nat} {rest : List Chars} {c c' : Manifest}
    (run : loadLine c (['S'] :: ['1'] :: decimal id :: rest) = .ok c') :
    id < 2 ^ 64 ∧ ∃ lo hi more, rest = lo :: hi :: more ∧
      ∃ found, number "manifest S records" "manifest S records" more = .ok found := by
  have one : number "manifest S level" "manifest S level" (['1'] :: decimal id :: rest) =
      .ok (1, decimal id :: rest) := numberDecimal _ _ (n := 1) (by decide) _
  simp only [loadLine] at run
  rw [if_neg (by decide), if_neg (by decide), if_pos trivial] at run
  simp only [one, bind, Except.bind] at run
  cases first : number "manifest S id" "manifest S id" (decimal id :: rest) with
  | error e =>
    rw [first] at run
    cases run
  | ok found =>
    obtain ⟨k, rest'⟩ := found
    rw [first] at run
    obtain ⟨small, rfl⟩ := numberSome first
    refine ⟨small, ?_⟩
    rcases rest' with _ | ⟨lo, _ | ⟨hi, more⟩⟩
    · cases run
    · cases run
    · refine ⟨lo, hi, more, rfl, ?_⟩
      simp only [word] at run
      cases last : number "manifest S records" "manifest S records" more with
      | ok found => exact ⟨found, rfl⟩
      | error e =>
        simp only [pure, Except.pure, last] at run
        cases run

theorem segmentSome {s : SegmentMeta} {c c' : Manifest}
    (run : loadLine c (words (segmentLine s)) = .ok c') :
    s.fileId < 2 ^ 64 ∧ s.records < 2 ^ 64 ∧ s.minKey ≠ [] ∧ s.maxKey ≠ [] := by
  have line : words (segmentLine s) = ['S'] :: ['1'] :: decimal s.fileId ::
      (words [hexEncode s.minKey, hexEncode s.maxKey] ++ [decimal s.records]) := by
    simp [words, segmentLine, List.filter_cons, decimalSome]
    split_ifs <;> simp
  rw [line] at run
  obtain ⟨id, lo, hi, more, rest, found, last⟩ := segmentRest run
  have length := congrArg List.length rest
  have empty : hexEncode [] = [] := rfl
  have keys : s.minKey ≠ [] ∧ s.maxKey ≠ [] := by
    by_contra none
    rw [not_and_or, not_not, not_not] at none
    have lost : more = [] := by
      have short : (words [hexEncode s.minKey, hexEncode s.maxKey]).length ≤ 1 := by
        rcases none with none | none <;> rw [none, empty] <;> simp [words, List.filter_cons] <;>
          split <;> simp
      simp only [List.length_append, List.length_cons, List.length_nil] at length
      exact List.length_eq_zero_iff.mp (by omega)
    rw [lost] at last
    cases last
  have both : words [hexEncode s.minKey, hexEncode s.maxKey] =
      [hexEncode s.minKey, hexEncode s.maxKey] := by
    simp [words, hexSome keys.1, hexSome keys.2]
  rw [both] at rest
  injection rest with _ rest
  injection rest with _ rest
  rw [← rest] at last
  exact ⟨id, (numberSome last).1, keys⟩

theorem levelSome {level : Nat} {ids : List Nat} {c c' : Manifest}
    (run : loadLine c (words (['L'] :: decimal level :: ids.map decimal)) = .ok c') :
    ∀ id ∈ ids, id < 2 ^ 64 := by
  have line : words (['L'] :: decimal level :: ids.map decimal) =
      ['L'] :: decimal level :: ids.map decimal := by
    refine List.filter_eq_self.mpr (fun v mv => ?_)
    simp only [List.mem_cons, List.mem_map] at mv
    rcases mv with rfl | rfl | ⟨i, _, rfl⟩ <;> simp [decimalSome]
  rw [line] at run
  simp only [loadLine] at run
  rw [if_neg (by decide), if_pos trivial] at run
  simp only [bind, Except.bind] at run
  cases first : number "manifest L level" "manifest level" (decimal level :: ids.map decimal) with
  | error e =>
    rw [first] at run
    cases run
  | ok found =>
    obtain ⟨k, rest⟩ := found
    obtain ⟨-, rfl⟩ := numberSome first
    rw [first] at run
    cases more : numbers (ids.map decimal) with
    | error e =>
      simp only [more] at run
      cases run
    | ok found => exact numbersSome more

theorem nextSome {n : Nat} {c c' : Manifest}
    (run : loadLine c (words [['N'], decimal n]) = .ok c') : n < 2 ^ 64 := by
  have line : words [['N'], decimal n] = [['N'], decimal n] := by simp [words, decimalSome]
  rw [line] at run
  simp only [loadLine, if_true, bind, Except.bind] at run
  cases first : number "manifest N line" "manifest id" [decimal n] with
  | error e =>
    rw [first] at run
    cases run
  | ok found => exact (numberSome first).1

theorem levelLine {m : Manifest} {ids : List Nat} (there : ids ∈ m.levels) (some_ : ids ≠ []) :
    ∃ level, ['L'] :: decimal level :: ids.map decimal ∈ savedLines m := by
  obtain ⟨level, small, rfl⟩ := List.mem_iff_getElem.mp there
  have place : (m.levels[level], level) ∈ m.levels.zipIdx :=
    List.mem_zipIdx_iff_getElem?.mpr (List.getElem?_eq_getElem small)
  refine ⟨level, ?_⟩
  simp only [savedLines, levelLines, List.mem_cons, List.mem_append, List.mem_map]
  exact .inr (.inl ⟨_, List.mem_filter.mpr ⟨place, by simpa using some_⟩, rfl⟩)

theorem loadWritable {m m' : Manifest} (run : load (some (save m)) = .ok m') : Writable m := by
  unfold load at run
  simp only [foldSaved] at run
  cases fold : ((savedLines m).map words).foldlM loadLine new with
  | error e =>
    rw [fold] at run
    cases run
  | ok read =>
    have line : ∀ ws ∈ savedLines m, ∃ c c', loadLine c (words ws) = .ok c' := fun ws mem =>
      foldEach fold _ (List.mem_map_of_mem mem)
    have segments : ∀ s ∈ m.segments, s.fileId < 2 ^ 64 ∧ s.records < 2 ^ 64 ∧ s.minKey ≠ [] ∧
        s.maxKey ≠ [] := by
      intro s ms
      obtain ⟨c, c', run⟩ := line (segmentLine s) (by simp [savedLines, List.mem_map_of_mem ms])
      exact segmentSome run
    refine ⟨?_, ?_, fun s ms => (segments s ms).2.1, fun s ms => (segments s ms).2.2⟩
    · obtain ⟨c, c', run⟩ := line [['N'], decimal m.nextTableId] (by simp [savedLines])
      exact nextSome run
    · intro id mem
      rcases List.mem_append.mp mem with level | segment
      · obtain ⟨ids, there, inside⟩ := List.mem_flatten.mp level
        obtain ⟨level, mem⟩ := levelLine there (List.ne_nil_of_mem inside)
        obtain ⟨c, c', run⟩ := line _ mem
        exact levelSome run id inside
      · obtain ⟨s, ms, rfl⟩ := List.mem_map.mp segment
        exact (segments s ms).1

theorem loadSaved {ids : List Nat} {segments : List SegmentMeta} {n : Nat}
    (w : Writable ⟨[ids], segments, n⟩) (sorted : Sorted segments)
    (nodup : (Manifest.mk [ids] segments n).allIds.Nodup) :
    load (some (save ⟨[ids], segments, n⟩)) = .ok ⟨if ids = [] then [] else [ids], segments, n⟩ := by
  have small : (∀ id ∈ ids, id < 2 ^ 64) ∧ ∀ s ∈ segments, s.fileId < 2 ^ 64 :=
    ⟨fun id m => w.ids id (by simp [allIds, m]), fun s m => w.ids _ (by
      simp only [allIds, List.mem_append, List.mem_map]
      exact .inr ⟨s, m, rfl⟩)⟩
  have full : ∀ ws ∈ savedLines ⟨[ids], segments, n⟩, words ws = ws := by
    intro ws m
    refine List.filter_eq_self.mpr (fun v mv => ?_)
    simp only [savedLines, levelLines, List.mem_cons, List.mem_append, List.mem_map] at m
    rcases m with rfl | ⟨l, _, rfl⟩ | ⟨s, ms, rfl⟩
    · rcases List.mem_pair.mp mv with rfl | rfl <;> simp [decimalSome]
    · simp only [List.mem_cons, List.mem_map] at mv
      rcases mv with rfl | rfl | ⟨i, _, rfl⟩ <;> simp [decimalSome]
    · have keys := w.keys s ms
      simp only [segmentLine, List.mem_cons, List.not_mem_nil, or_false] at mv
      rcases mv with rfl | rfl | rfl | rfl | rfl | rfl <;>
        simp [decimalSome, hexSome keys.1, hexSome keys.2]
  have fold : (lines (save ⟨[ids], segments, n⟩)).foldlM (fun m line => loadLine m (tokens line)) new
      = (savedLines ⟨[ids], segments, n⟩).foldlM loadLine new := by
    rw [foldSaved, List.map_congr_left full, List.map_id']
  have first : loadLine new [['N'], decimal n] = .ok ⟨[], [], n⟩ := by
    simp only [loadLine, if_true, numberDecimal _ _ w.next, bind, Except.bind, pure, Except.pure]
    rfl
  have read : (savedLines ⟨[ids], segments, n⟩).foldlM loadLine new =
      .ok ⟨if ids = [] then [] else [ids], segments, n⟩ := by
    rw [savedLines, List.foldlM_cons, first]
    change List.foldlM loadLine _ _ = _
    rw [List.foldlM_append, loadLevel small.1]
    change List.foldlM loadLine _ _ = _
    rw [loadSegments small.2 w.records]
    simp
  have same : (Manifest.mk (if ids = [] then [] else [ids]) segments n).allIds.Nodup := by
    split
    · rename_i none
      simpa [allIds, none] using nodup
    · exact nodup
  have valid := validateSorted (m := ⟨if ids = [] then [] else [ids], segments, n⟩) sorted same
  unfold load
  simp only [fold, read, bind, Except.bind, valid]
  rfl

end Manifest
end MyLsmDb
