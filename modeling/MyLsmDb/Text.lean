import Mathlib

/-! Text as a list of characters: `lines`, `split_whitespace`, decimal and hexadecimal
numbers, and what undoes what. -/
namespace MyLsmDb.Text

abbrev Chars := List Char

/-- The Unicode White_Space property. -/
def isWhitespace (c : Char) : Bool :=
  let n := c.toNat
  (9 ≤ n && n ≤ 13) || n == 0x20 || n == 0x85 || n == 0xA0 || n == 0x1680 ||
    (0x2000 ≤ n && n ≤ 0x200A) || n == 0x2028 || n == 0x2029 || n == 0x202F || n == 0x205F ||
    n == 0x3000

def startLine (c : Char) : List Chars → List Chars
  | [] => [[c]]
  | l :: rest => (c :: l) :: rest

/- Each line ends at `\n` or `\r\n`; nothing follows the last end of line. -/
def lines : Chars → List Chars
  | [] => []
  | '\n' :: rest => [] :: lines rest
  | '\r' :: '\n' :: rest => [] :: lines rest
  | c :: rest => startLine c (lines rest)

def tokens : Chars → List Chars
  | [] => []
  | c :: rest =>
    if isWhitespace c then tokens rest
    else match rest with
      | [] => [[c]]
      | d :: _ => if isWhitespace d then [c] :: tokens rest else startLine c (tokens rest)

/-- Words with one blank between neighbours. -/
def joinSpace : List Chars → Chars
  | [] => []
  | [t] => t
  | t :: rest => t ++ ' ' :: joinSpace rest

def decimal (n : Nat) : Chars := Nat.toDigits 10 n

/- `str::parse` of an unsigned integer below `bound`: an optional plus sign, digits only. -/
def parseDecimal (bound : Nat) (s : Chars) : Option Nat :=
  let digits := match s with
    | '+' :: rest => rest
    | _ => s
  if digits = [] ∨ digits.all Char.isDigit = false then none
  else
    let n := Nat.ofDigitChars 10 digits 0
    if n < bound then some n else none

def hexDigit (n : Nat) : Char := if n < 10 then Char.ofNat (48 + n) else Char.ofNat (87 + n)

def hexEncode (bytes : List UInt8) : Chars :=
  bytes.flatMap (fun b => [hexDigit (b.toNat / 16), hexDigit (b.toNat % 16)])

def hexValue (c : Char) : Option Nat :=
  if '0' ≤ c ∧ c ≤ '9' then some (c.toNat - 48)
  else if 'a' ≤ c ∧ c ≤ 'f' then some (c.toNat - 87)
  else if 'A' ≤ c ∧ c ≤ 'F' then some (c.toNat - 55)
  else none

/- `str::replace` of the text `code` by `to_`: leftmost matches that do not overlap. The
count says how many characters of a match are still to be dropped. -/
def replaceFrom (code to_ : Chars) : Nat → Chars → Chars
  | _, [] => []
  | k + 1, _ :: rest => replaceFrom code to_ k rest
  | 0, c :: rest =>
    if code.isPrefixOf (c :: rest) then to_ ++ replaceFrom code to_ (code.length - 1) rest
    else c :: replaceFrom code to_ 0 rest

def replace (code to_ s : Chars) : Chars := replaceFrom code to_ 0 s

def Plain (t : Chars) : Prop := ∀ c ∈ t, isWhitespace c = false

theorem newlineWhitespace : isWhitespace '\n' = true := by decide
theorem returnWhitespace : isWhitespace '\r' = true := by decide

theorem linesPlain {line : Chars} (rest : Chars) (h : ∀ c ∈ line, c ≠ '\n' ∧ c ≠ '\r') :
    lines (line ++ '\n' :: rest) = line :: lines rest := by
  induction line with
  | nil => rfl
  | cons c line ih =>
    have here := h c List.mem_cons_self
    have tail := ih (fun d m => h d (List.mem_cons_of_mem _ m))
    rw [List.cons_append, lines.eq_def]
    split
    · contradiction
    · rename_i eq
      exact absurd (List.cons.inj eq).1 here.1
    · rename_i eq
      exact absurd (List.cons.inj eq).1 here.2
    · rename_i eq
      obtain ⟨rfl, rfl⟩ := List.cons.inj eq
      rw [tail]
      rfl

theorem tokensSpace (rest : Chars) : tokens (' ' :: rest) = tokens rest := by
  rw [tokens.eq_def]
  exact if_pos (by decide)

theorem tokensWord {word : Chars} (plain : Plain word) (some : word ≠ []) (rest : Chars) :
    tokens (word ++ ' ' :: rest) = word :: tokens rest := by
  induction word with
  | nil => exact absurd rfl some
  | cons c word ih =>
    have here := plain c List.mem_cons_self
    cases word with
    | nil =>
      change tokens (c :: ' ' :: rest) = _
      rw [tokens.eq_def]
      simp only [here, Bool.false_eq_true, if_false]
      rw [if_pos (by decide), tokensSpace]
    | cons d word =>
      have next := plain d (List.mem_cons_of_mem _ List.mem_cons_self)
      have tail := ih (fun e m => plain e (List.mem_cons_of_mem _ m)) (List.cons_ne_nil _ _)
      change tokens (c :: d :: (word ++ ' ' :: rest)) = _
      rw [tokens.eq_def]
      simp only [here, next, Bool.false_eq_true, if_false]
      change startLine c (tokens (d :: word ++ ' ' :: rest)) = _
      rw [tail]
      rfl

theorem tokensLast {word : Chars} (plain : Plain word) (some : word ≠ []) :
    tokens word = [word] := by
  induction word with
  | nil => exact absurd rfl some
  | cons c word ih =>
    have here := plain c List.mem_cons_self
    rw [tokens.eq_def]
    cases word with
    | nil => simp [here]
    | cons d word =>
      have next := plain d (List.mem_cons_of_mem _ List.mem_cons_self)
      have tail := ih (fun e m => plain e (List.mem_cons_of_mem _ m)) (List.cons_ne_nil _ _)
      simp [here, next, tail, startLine]

/-- Empty words are lost. -/
theorem tokensJoinSome {words : List Chars} (plain : ∀ w ∈ words, Plain w) :
    tokens (joinSpace words) = words.filter (fun w => decide (w ≠ [])) := by
  induction words with
  | nil => rfl
  | cons w words ih =>
    have tail := ih (fun v m => plain v (List.mem_cons_of_mem _ m))
    have pw := plain w List.mem_cons_self
    by_cases sw : w = []
    · rw [List.filter_cons_of_neg (by simp [sw]), ← tail, sw]
      cases words with
      | nil => rfl
      | cons v words => exact tokensSpace _
    · rw [List.filter_cons_of_pos (by simp [sw]), ← tail]
      cases words with
      | nil => exact tokensLast pw sw
      | cons v words => exact tokensWord pw sw _

theorem tokensJoin {words : List Chars} (plain : ∀ w ∈ words, Plain w) (some : ∀ w ∈ words, w ≠ []) :
    tokens (joinSpace words) = words := by
  rw [tokensJoinSome plain, List.filter_eq_self.mpr (fun w m => by simpa using some w m)]

theorem startLinePlain {c : Char} (h : isWhitespace c = false) {ls : List Chars}
    (plain : ∀ w ∈ ls, Plain w ∧ w ≠ []) : ∀ w ∈ startLine c ls, Plain w ∧ w ≠ [] := by
  cases ls with
  | nil => simp [startLine, Plain, h]
  | cons l ls =>
    intro w m
    rcases List.mem_cons.mp m with rfl | m
    · refine ⟨fun d md => ?_, List.cons_ne_nil _ _⟩
      rcases List.mem_cons.mp md with rfl | md
      · exact h
      · exact (plain l List.mem_cons_self).1 d md
    · exact plain w (List.mem_cons_of_mem _ m)

theorem tokensPlain (s : Chars) : ∀ w ∈ tokens s, Plain w ∧ w ≠ [] := by
  induction s with
  | nil => exact fun _ m => nomatch m
  | cons c rest ih =>
    rw [tokens.eq_def]
    by_cases blank : isWhitespace c = true
    · simpa only [blank, if_true] using ih
    · have solid : isWhitespace c = false := by simpa using blank
      have alone : ∀ w ∈ startLine c [], Plain w ∧ w ≠ [] :=
        startLinePlain solid (fun _ m => nomatch m)
      simp only [blank, if_false, Bool.false_eq_true]
      cases rest with
      | nil => exact alone
      | cons d more =>
        dsimp only
        split
        · intro w m
          rcases List.mem_cons.mp m with rfl | m
          · exact alone _ List.mem_cons_self
          · exact ih w m
        · exact startLinePlain solid ih

theorem joinPlain {words : List Chars} (plain : ∀ w ∈ words, Plain w) :
    ∀ c ∈ joinSpace words, c ≠ '\n' ∧ c ≠ '\r' := by
  have word : ∀ w ∈ words, ∀ c ∈ w, c ≠ '\n' ∧ c ≠ '\r' := by
    intro w mw c mc
    have blank := plain w mw c mc
    constructor
    · rintro rfl
      exact absurd (blank.symm.trans newlineWhitespace) Bool.false_ne_true
    · rintro rfl
      exact absurd (blank.symm.trans returnWhitespace) Bool.false_ne_true
  clear plain
  induction words with
  | nil => intro c m; cases m
  | cons w words ih =>
    have tail := ih (fun v m => word v (List.mem_cons_of_mem _ m))
    cases words with
    | nil => exact word w List.mem_cons_self
    | cons v words =>
      intro c m
      rcases List.mem_append.mp m with m | m
      · exact word w List.mem_cons_self c m
      · rcases List.mem_cons.mp m with rfl | m
        · decide
        · exact tail c m

theorem joinCons (w : Chars) {words : List Chars} (some_ : words ≠ []) :
    joinSpace (w :: words) = w ++ ' ' :: joinSpace words := by
  cases words with
  | nil => exact absurd rfl some_
  | cons v words => rfl

theorem joinNested (front : List Chars) {words : List Chars} (some_ : words ≠ []) :
    joinSpace (front ++ [joinSpace words]) = joinSpace (front ++ words) := by
  induction front with
  | nil => rfl
  | cons w front ih =>
    rw [List.cons_append, List.cons_append,
      joinCons w (List.append_ne_nil_of_right_ne_nil front (List.cons_ne_nil _ [])),
      joinCons w (List.append_ne_nil_of_right_ne_nil front some_), ih]

theorem linesSaved {all : List (List Chars)}
    (ended : ∀ ws ∈ all, ∀ c ∈ joinSpace ws, c ≠ '\n' ∧ c ≠ '\r') :
    lines (all.flatMap (fun words => joinSpace words ++ ['\n'])) = all.map joinSpace := by
  induction all with
  | nil => rfl
  | cons ws all ih =>
    rw [List.flatMap_cons, List.append_assoc]
    change lines (joinSpace ws ++ '\n' :: all.flatMap (fun words => joinSpace words ++ ['\n'])) = _
    rw [linesPlain _ (ended ws List.mem_cons_self),
      ih (fun v m => ended v (List.mem_cons_of_mem _ m)), List.map_cons]

theorem digitPlain {c : Char} (h : c.isDigit) : isWhitespace c = false := by
  simp only [Char.isDigit, Bool.and_eq_true, decide_eq_true_eq, UInt32.le_iff_toNat_le] at h
  have lo : 48 ≤ c.toNat := h.1
  have hi : c.toNat ≤ 57 := h.2
  unfold isWhitespace
  generalize c.toNat = n at lo hi
  interval_cases n <;> rfl

theorem decimalDigits (n : Nat) : ∀ c ∈ decimal n, c.isDigit := fun _ m =>
  Nat.isDigit_of_mem_toDigits (by decide) (by decide) m

theorem decimalPlain (n : Nat) : Plain (decimal n) := fun c m => digitPlain (decimalDigits n c m)

theorem decimalSome (n : Nat) : decimal n ≠ [] := Nat.toDigits_ne_nil

theorem parseUnsigned {s : Chars} (digits : ∀ c ∈ s, c.isDigit) (bound : Nat) :
    parseDecimal bound s = if s = [] then none
      else if Nat.ofDigitChars 10 s 0 < bound then some (Nat.ofDigitChars 10 s 0) else none := by
  cases s with
  | nil => rfl
  | cons c rest =>
    have plus : c ≠ '+' := by
      rintro rfl
      exact absurd (digits '+' List.mem_cons_self) (by decide)
    have all : (c :: rest).all Char.isDigit = true := List.all_eq_true.mpr digits
    simp [parseDecimal, plus, all]

theorem parseDigits {bound : Nat} {s : Chars} (some_ : s ≠ []) (digits : ∀ c ∈ s, c.isDigit)
    (small : Nat.ofDigitChars 10 s 0 < bound) :
    parseDecimal bound s = some (Nat.ofDigitChars 10 s 0) := by
  rw [parseUnsigned digits, if_neg some_, if_pos small]

theorem parseDecimalIf (bound n : Nat) :
    parseDecimal bound (decimal n) = if n < bound then some n else none := by
  have value : Nat.ofDigitChars 10 (decimal n) 0 = n := Nat.ofDigitChars_ten_toDigits
  rw [parseUnsigned (decimalDigits n), if_neg (decimalSome n), value]

theorem parseBound {bound n : Nat} {s : Chars} (run : parseDecimal bound s = some n) :
    n < bound := by
  unfold parseDecimal at run
  generalize (match s with
    | '+' :: rest => rest
    | _ => s) = digits at run
  dsimp only at run
  by_cases bad : digits = [] ∨ digits.all Char.isDigit = false
  · rw [if_pos bad] at run
    cases run
  · rw [if_neg bad] at run
    by_cases small : Nat.ofDigitChars 10 digits 0 < bound
    · rw [if_pos small] at run
      cases run
      exact small
    · rw [if_neg small] at run
      cases run

theorem parseDecimalText {bound n : Nat} (h : n < bound) :
    parseDecimal bound (decimal n) = some n := by
  rw [parseDecimalIf, if_pos h]

theorem decimalInjective {a b : Nat} (same : decimal a = decimal b) : a = b := by
  have left := parseDecimalText (Nat.lt_succ_of_le (le_max_left a b))
  have right := parseDecimalText (Nat.lt_succ_of_le (le_max_right a b))
  rw [same, right] at left
  exact (Option.some.inj left).symm

theorem hexDigitPlain {n : Nat} (h : n < 16) : isWhitespace (hexDigit n) = false := by
  interval_cases n <;> decide

theorem hexValueDigit {n : Nat} (h : n < 16) : hexValue (hexDigit n) = some n := by
  interval_cases n <;> decide

theorem hexPlain (bytes : List UInt8) : Plain (hexEncode bytes) := by
  intro c m
  obtain ⟨b, _, m⟩ := List.mem_flatMap.mp m
  have lt := b.toNat_lt
  simp only [List.mem_cons, List.not_mem_nil, or_false] at m
  rcases m with rfl | rfl <;> exact hexDigitPlain (by omega)

theorem replaceSkip {code to_ rest : Chars} {c : Char}
    (h : code.isPrefixOf (c :: rest) = false) :
    replace code to_ (c :: rest) = c :: replace code to_ rest := by
  simp [replace, replaceFrom, h]

theorem replaceDrop (code to_ s rest : Chars) :
    replaceFrom code to_ s.length (s ++ rest) = replace code to_ rest := by
  induction s with
  | nil => rfl
  | cons c s ih => exact ih

theorem replaceHit {code to_ : Chars} (some_ : code ≠ []) (rest : Chars) :
    replace code to_ (code ++ rest) = to_ ++ replace code to_ rest := by
  cases code with
  | nil => exact absurd rfl some_
  | cons c code =>
    have hit : (c :: code).isPrefixOf (c :: (code ++ rest)) = true :=
      List.isPrefixOf_iff_prefix.mpr (List.prefix_append _ _)
    change replaceFrom _ _ 0 (c :: (code ++ rest)) = _
    rw [replaceFrom, if_pos hit]
    change to_ ++ replaceFrom _ _ code.length (code ++ rest) = _
    rw [replaceDrop]

theorem replaceChar (d : Char) (to_ s : Chars) :
    replace [d] to_ s = s.flatMap (fun c => if c = d then to_ else [c]) := by
  induction s with
  | nil => rfl
  | cons c s ih =>
    by_cases same : c = d
    · subst same
      have hit := @replaceHit [c] to_ (List.cons_ne_nil c []) s
      rw [List.singleton_append] at hit
      rw [hit, ih, List.flatMap_cons, if_pos rfl]
    · have skip : [d].isPrefixOf (c :: s) = false := by
        simp [List.isPrefixOf, Ne.symm same]
      rw [replaceSkip skip, ih, List.flatMap_cons, if_neg same, List.singleton_append]

theorem replaceMem {code to_ s : Chars} {c : Char} (m : c ∈ replace code to_ s) :
    c ∈ to_ ∨ c ∈ s := by
  suffices all : ∀ k, c ∈ replaceFrom code to_ k s → c ∈ to_ ∨ c ∈ s from all 0 m
  clear m
  induction s with
  | nil =>
    intro k m
    cases k <;> cases m
  | cons d s ih =>
    intro k m
    have rest := fun k m => (ih k m).imp_right (List.mem_cons_of_mem d)
    cases k with
    | succ k => exact rest k m
    | zero =>
      rw [replaceFrom] at m
      split at m
      · rcases List.mem_append.mp m with m | m
        · exact .inl m
        · exact rest _ m
      · rcases List.mem_cons.mp m with rfl | m
        · exact .inr List.mem_cons_self
        · exact rest _ m

theorem replaceSome {code to_ s : Chars} (some_ : s ≠ []) (target : to_ ≠ []) :
    replace code to_ s ≠ [] := by
  cases s with
  | nil => exact absurd rfl some_
  | cons c s =>
    rw [replace, replaceFrom]
    split
    · exact fun none => target (List.append_eq_nil_iff.mp none).1
    · exact List.cons_ne_nil _ _

end MyLsmDb.Text
