import MyLsmDb.Value

/-! Texts as characters and as bytes. -/
namespace MyLsmDb
open ByteOrder (Bytes)
open Text (Chars)

def utf8Bytes (s : Chars) : Bytes := s.flatMap String.utf8EncodeChar

def decodeUtf8 : Bytes → Chars
  | [] => []
  | a :: rest =>
    if a.toNat < 0x80 then Char.ofNat a.toNat :: decodeUtf8 rest
    else match rest with
      | [] => []
      | b :: rest =>
        if a.toNat < 0xE0 then Char.ofNat (a.toNat % 32 * 64 + b.toNat % 64) :: decodeUtf8 rest
        else match rest with
          | [] => []
          | c :: rest =>
            if a.toNat < 0xF0 then
              Char.ofNat (a.toNat % 16 * 4096 + b.toNat % 64 * 64 + c.toNat % 64) ::
                decodeUtf8 rest
            else match rest with
              | [] => []
              | d :: rest =>
                Char.ofNat (a.toNat % 8 * 262144 + b.toNat % 64 * 4096 + c.toNat % 64 * 64 +
                  d.toNat % 64) :: decodeUtf8 rest

/-- A byte that goes on with a character. -/
def Continues (b : UInt8) : Prop := 0x80 ≤ b.toNat ∧ b.toNat ≤ 0xBF

/-- The bytes of one character and those behind it. -/
inductive Leads : UInt8 → Bytes → Bytes → Prop
  | one {a rest} : a.toNat < 0x80 → Leads a rest rest
  | two {a b rest} : 0xC2 ≤ a.toNat → a.toNat ≤ 0xDF → Continues b → Leads a (b :: rest) rest
  | three {a b c rest} : 0xE0 ≤ a.toNat → a.toNat ≤ 0xEF → Continues b → Continues c →
      (a.toNat = 0xE0 → 0xA0 ≤ b.toNat) → (a.toNat = 0xED → b.toNat ≤ 0x9F) →
      Leads a (b :: c :: rest) rest
  | four {a b c d rest} : 0xF0 ≤ a.toNat → a.toNat ≤ 0xF4 → Continues b → Continues c →
      Continues d → (a.toNat = 0xF0 → 0x90 ≤ b.toNat) → (a.toNat = 0xF4 → b.toNat ≤ 0x8F) →
      Leads a (b :: c :: d :: rest) rest

theorem utf8FromCons {lo hi : UInt8} {ranges : List (UInt8 × UInt8)} {rest : Bytes} :
    utf8From ((lo, hi) :: ranges) rest = true ↔ ∃ b later, rest = b :: later ∧
      lo.toNat ≤ b.toNat ∧ b.toNat ≤ hi.toNat ∧ utf8From ranges later = true := by
  cases rest with
  | nil => simp [utf8From]
  | cons b later => simp [utf8From, UInt8.le_iff_toNat_le, and_assoc]

theorem followingNat (a : UInt8) : following a =
    if a.toNat < 0x80 then some []
    else if a.toNat < 0xC2 then none
    else if a.toNat ≤ 0xDF then some [(0x80, 0xBF)]
    else if a.toNat = 0xE0 then some [(0xA0, 0xBF), (0x80, 0xBF)]
    else if a.toNat = 0xED then some [(0x80, 0x9F), (0x80, 0xBF)]
    else if a.toNat ≤ 0xEF then some [(0x80, 0xBF), (0x80, 0xBF)]
    else if a.toNat = 0xF0 then some [(0x90, 0xBF), (0x80, 0xBF), (0x80, 0xBF)]
    else if a.toNat ≤ 0xF3 then some [(0x80, 0xBF), (0x80, 0xBF), (0x80, 0xBF)]
    else if a.toNat = 0xF4 then some [(0x80, 0x8F), (0x80, 0xBF), (0x80, 0xBF)]
    else none := by
  simp only [following, UInt8.lt_iff_toNat_lt, UInt8.le_iff_toNat_le, ← UInt8.toNat_inj]
  rfl

theorem utf8Cons {a : UInt8} {rest : Bytes} : isUtf8 (a :: rest) = true ↔
    ∃ later, Leads a rest later ∧ isUtf8 later = true := by
  unfold isUtf8
  rw [utf8From.eq_def]
  dsimp only
  rw [followingNat]
  constructor
  · intro h
    split_ifs at h with h1 h2 h3 h4 h5 h6 h7 h8 h9
    · exact ⟨rest, .one h1, h⟩
    · obtain ⟨b, later, rfl, lo, hi, more⟩ := utf8FromCons.mp h
      exact ⟨later, .two (by omega) h3 ⟨lo, hi⟩, more⟩
    · obtain ⟨b, later, rfl, lo, hi, more⟩ := utf8FromCons.mp h
      obtain ⟨c, later, rfl, lo', hi', more⟩ := utf8FromCons.mp more
      have low : 0xA0 ≤ b.toNat := lo
      exact ⟨later, .three (by omega) (by omega) ⟨by omega, hi⟩ ⟨lo', hi'⟩ (fun _ => low)
        (by omega), more⟩
    · obtain ⟨b, later, rfl, lo, hi, more⟩ := utf8FromCons.mp h
      obtain ⟨c, later, rfl, lo', hi', more⟩ := utf8FromCons.mp more
      have high : b.toNat ≤ 0x9F := hi
      exact ⟨later, .three (by omega) (by omega) ⟨lo, by omega⟩ ⟨lo', hi'⟩ (by omega)
        (fun _ => high), more⟩
    · obtain ⟨b, later, rfl, lo, hi, more⟩ := utf8FromCons.mp h
      obtain ⟨c, later, rfl, lo', hi', more⟩ := utf8FromCons.mp more
      exact ⟨later, .three (by omega) h6 ⟨lo, hi⟩ ⟨lo', hi'⟩ (by omega) (by omega), more⟩
    · obtain ⟨b, later, rfl, lo, hi, more⟩ := utf8FromCons.mp h
      obtain ⟨c, later, rfl, lo', hi', more⟩ := utf8FromCons.mp more
      obtain ⟨d, later, rfl, lo'', hi'', more⟩ := utf8FromCons.mp more
      have low : 0x90 ≤ b.toNat := lo
      exact ⟨later, .four (by omega) (by omega) ⟨by omega, hi⟩ ⟨lo', hi'⟩ ⟨lo'', hi''⟩
        (fun _ => low) (by omega), more⟩
    · obtain ⟨b, later, rfl, lo, hi, more⟩ := utf8FromCons.mp h
      obtain ⟨c, later, rfl, lo', hi', more⟩ := utf8FromCons.mp more
      obtain ⟨d, later, rfl, lo'', hi'', more⟩ := utf8FromCons.mp more
      exact ⟨later, .four (by omega) (by omega) ⟨lo, hi⟩ ⟨lo', hi'⟩ ⟨lo'', hi''⟩ (by omega)
        (by omega), more⟩
    · obtain ⟨b, later, rfl, lo, hi, more⟩ := utf8FromCons.mp h
      obtain ⟨c, later, rfl, lo', hi', more⟩ := utf8FromCons.mp more
      obtain ⟨d, later, rfl, lo'', hi'', more⟩ := utf8FromCons.mp more
      have high : b.toNat ≤ 0x8F := hi
      exact ⟨later, .four (by omega) (by omega) ⟨lo, by omega⟩ ⟨lo', hi'⟩ ⟨lo'', hi''⟩ (by omega)
        (fun _ => high), more⟩
  · intro h
    obtain ⟨later, leads, more⟩ := h
    cases leads with
    | one h1 =>
      rw [if_pos h1]
      exact more
    | two lo hi hb =>
      rw [if_neg (by omega), if_neg (by omega), if_pos hi]
      exact utf8FromCons.mpr ⟨_, _, rfl, hb.1, hb.2, more⟩
    | three lo hi hb hc hE0 hED =>
      rw [if_neg (by omega), if_neg (by omega), if_neg (by omega)]
      split_ifs with h4 h5
      · exact utf8FromCons.mpr ⟨_, _, rfl, hE0 h4, hb.2, utf8FromCons.mpr
          ⟨_, _, rfl, hc.1, hc.2, more⟩⟩
      · exact utf8FromCons.mpr ⟨_, _, rfl, hb.1, hED h5, utf8FromCons.mpr
          ⟨_, _, rfl, hc.1, hc.2, more⟩⟩
      · exact utf8FromCons.mpr ⟨_, _, rfl, hb.1, hb.2, utf8FromCons.mpr
          ⟨_, _, rfl, hc.1, hc.2, more⟩⟩
    | four lo hi hb hc hd hF0 hF4 =>
      rw [if_neg (by omega), if_neg (by omega), if_neg (by omega), if_neg (by omega),
        if_neg (by omega), if_neg (by omega)]
      split_ifs with h7 h8 h9
      · exact utf8FromCons.mpr ⟨_, _, rfl, hF0 h7, hb.2, utf8FromCons.mpr
          ⟨_, _, rfl, hc.1, hc.2, utf8FromCons.mpr ⟨_, _, rfl, hd.1, hd.2, more⟩⟩⟩
      · exact utf8FromCons.mpr ⟨_, _, rfl, hb.1, hb.2, utf8FromCons.mpr
          ⟨_, _, rfl, hc.1, hc.2, utf8FromCons.mpr ⟨_, _, rfl, hd.1, hd.2, more⟩⟩⟩
      · exact utf8FromCons.mpr ⟨_, _, rfl, hb.1, hF4 h9, utf8FromCons.mpr
          ⟨_, _, rfl, hc.1, hc.2, utf8FromCons.mpr ⟨_, _, rfl, hd.1, hd.2, more⟩⟩⟩
      · omega

theorem byteNat (n : Nat) (small : n < 256) : (UInt8.ofNat n).toNat = n := by
  rw [UInt8.toNat_ofNat']
  exact Nat.mod_eq_of_lt small

theorem utf8EncodeLeads (c : Char) (rest : Bytes) : ∃ a later,
    String.utf8EncodeChar c ++ rest = a :: later ∧ Leads a later rest := by
  have valid : c.val.toNat < 0xD800 ∨ (0xDFFF < c.val.toNat ∧ c.val.toNat < 0x110000) := c.valid
  unfold String.utf8EncodeChar
  dsimp only
  generalize c.val.toNat = n at valid
  split_ifs with h1 h2 h3
  · exact ⟨_, _, rfl, .one (by rw [byteNat _ (by omega)]; omega)⟩
  · refine ⟨_, _, rfl, .two ?_ ?_ ⟨?_, ?_⟩⟩ <;> rw [byteNat _ (by omega)] <;> omega
  · refine ⟨_, _, rfl, .three ?_ ?_ ⟨?_, ?_⟩ ⟨?_, ?_⟩ ?_ ?_⟩ <;>
      simp only [byteNat _ (show n / 4096 % 16 + 224 < 256 by omega),
        byteNat _ (show n / 64 % 64 + 128 < 256 by omega),
        byteNat _ (show n % 64 + 128 < 256 by omega)] <;> omega
  · refine ⟨_, _, rfl, .four ?_ ?_ ⟨?_, ?_⟩ ⟨?_, ?_⟩ ⟨?_, ?_⟩ ?_ ?_⟩ <;>
      simp only [byteNat _ (show n / 262144 % 8 + 240 < 256 by omega),
        byteNat _ (show n / 4096 % 64 + 128 < 256 by omega),
        byteNat _ (show n / 64 % 64 + 128 < 256 by omega),
        byteNat _ (show n % 64 + 128 < 256 by omega)] <;> omega

theorem utf8BytesValid (s : Chars) : isUtf8 (utf8Bytes s) = true := by
  induction s with
  | nil => rfl
  | cons c s ih =>
    rw [utf8Bytes, List.flatMap_cons]
    obtain ⟨a, later, same, leads⟩ := utf8EncodeLeads c (s.flatMap String.utf8EncodeChar)
    rw [same]
    exact utf8Cons.mpr ⟨_, leads, ih⟩

def Utf8.ofChars (s : Chars) : Utf8 := ⟨utf8Bytes s, utf8BytesValid s⟩

def Utf8.chars (s : Utf8) : Chars := decodeUtf8 s.bytes

theorem encodeNumber {n : Nat} (valid : n < 0xD800 ∨ (0xDFFF < n ∧ n < 0x110000)) :
    String.utf8EncodeChar (Char.ofNat n) =
      if n ≤ 0x7f then [UInt8.ofNat n]
      else if n ≤ 0x7ff then [UInt8.ofNat (n / 64 % 32 + 192), UInt8.ofNat (n % 64 + 128)]
      else if n ≤ 0xffff then [UInt8.ofNat (n / 4096 % 16 + 224), UInt8.ofNat (n / 64 % 64 + 128),
        UInt8.ofNat (n % 64 + 128)]
      else [UInt8.ofNat (n / 262144 % 8 + 240), UInt8.ofNat (n / 4096 % 64 + 128),
        UInt8.ofNat (n / 64 % 64 + 128), UInt8.ofNat (n % 64 + 128)] := by
  have number : (Char.ofNat n).val.toNat = n := by
    change (Char.ofNat n).toNat = n
    rw [Char.toNat_ofNat, if_pos valid]
  unfold String.utf8EncodeChar
  dsimp only
  rw [number]

theorem byteBack {b : UInt8} {n : Nat} (same : n = b.toNat) : UInt8.ofNat n = b := by
  rw [same]
  exact UInt8.ofNat_toNat

theorem decodeLeads {a : UInt8} {rest later : Bytes} (leads : Leads a rest later) :
    ∃ c, decodeUtf8 (a :: rest) = c :: decodeUtf8 later ∧
      String.utf8EncodeChar c ++ later = a :: rest := by
  have top := a.toNat_lt
  cases leads with
  | one low =>
    refine ⟨Char.ofNat a.toNat, by rw [decodeUtf8.eq_def]; exact if_pos low, ?_⟩
    rw [encodeNumber (by omega), if_pos (by omega), byteBack rfl]
    rfl
  | @two b _ lo hi hb =>
    obtain ⟨lb, ub⟩ := hb
    refine ⟨Char.ofNat (a.toNat % 32 * 64 + b.toNat % 64), ?_, ?_⟩
    · rw [decodeUtf8.eq_def]
      dsimp only
      rw [if_neg (by omega), if_pos (by omega)]
    · rw [encodeNumber (by omega), if_neg (by omega), if_pos (by omega)]
      simp only [List.cons_append, List.nil_append, List.cons.injEq]
      exact ⟨byteBack (by omega), byteBack (by omega), trivial⟩
  | @three b c _ lo hi hb hc hE0 hED =>
    obtain ⟨lb, ub⟩ := hb
    obtain ⟨lc, uc⟩ := hc
    refine ⟨Char.ofNat (a.toNat % 16 * 4096 + b.toNat % 64 * 64 + c.toNat % 64), ?_, ?_⟩
    · rw [decodeUtf8.eq_def]
      dsimp only
      rw [if_neg (by omega), if_neg (by omega), if_pos (by omega)]
    · rw [encodeNumber (by omega), if_neg (by omega), if_neg (by omega), if_pos (by omega)]
      simp only [List.cons_append, List.nil_append, List.cons.injEq]
      exact ⟨byteBack (by omega), byteBack (by omega), byteBack (by omega), trivial⟩
  | @four b c d _ lo hi hb hc hd hF0 hF4 =>
    obtain ⟨lb, ub⟩ := hb
    obtain ⟨lc, uc⟩ := hc
    obtain ⟨ld, ud⟩ := hd
    refine ⟨Char.ofNat (a.toNat % 8 * 262144 + b.toNat % 64 * 4096 + c.toNat % 64 * 64 +
      d.toNat % 64), ?_, ?_⟩
    · rw [decodeUtf8.eq_def]
      dsimp only
      rw [if_neg (by omega), if_neg (by omega), if_neg (by omega)]
    · rw [encodeNumber (by omega), if_neg (by omega), if_neg (by omega), if_neg (by omega)]
      simp only [List.cons_append, List.nil_append, List.cons.injEq]
      exact ⟨byteBack (by omega), byteBack (by omega), byteBack (by omega), byteBack (by omega),
        trivial⟩

theorem Leads.shorter {a : UInt8} {rest later : Bytes} (leads : Leads a rest later) :
    later.length < (a :: rest).length := by
  cases leads <;> simp only [List.length_cons] <;> omega

theorem utf8Back {b : Bytes} (valid : isUtf8 b = true) : utf8Bytes (decodeUtf8 b) = b := by
  induction n : b.length using Nat.strong_induction_on generalizing b with
  | _ n ih =>
    cases b with
    | nil => rfl
    | cons a rest =>
      obtain ⟨later, leads, more⟩ := utf8Cons.mp valid
      obtain ⟨c, decoded, encoded⟩ := decodeLeads leads
      have back := ih later.length (n ▸ leads.shorter) more rfl
      rw [decoded, utf8Bytes, List.flatMap_cons]
      change String.utf8EncodeChar c ++ utf8Bytes (decodeUtf8 later) = _
      rw [back, encoded]

theorem charsBack (s : Utf8) : Utf8.ofChars s.chars = s := by
  obtain ⟨bytes, valid⟩ := s
  unfold Utf8.ofChars Utf8.chars
  simp only [utf8Back valid]

theorem asciiBytes {b : Bytes} (ascii : ∀ x ∈ b, x.toNat < 0x80) :
    utf8Bytes (b.map (fun x => Char.ofNat x.toNat)) = b := by
  induction b with
  | nil => rfl
  | cons a rest ih =>
    have low := ascii a List.mem_cons_self
    rw [List.map_cons, utf8Bytes, List.flatMap_cons, encodeNumber (by omega), if_pos (by omega),
      byteBack rfl]
    exact congrArg (a :: ·) (ih (fun x m => ascii x (List.mem_cons_of_mem _ m)))

/-- A byte above ASCII becomes two of its own when it is taken for a character. -/
theorem bytesAsChars (b : Bytes) : (utf8Bytes (b.map (fun x => Char.ofNat x.toNat))).length =
    b.length + b.countP (fun x => 0x80 ≤ x.toNat) := by
  induction b with
  | nil => rfl
  | cons a rest ih =>
    have top := a.toNat_lt
    rw [List.map_cons, utf8Bytes, List.flatMap_cons, List.length_append,
      encodeNumber (by omega)]
    change _ + (utf8Bytes (rest.map _)).length = _
    rw [ih, List.countP_cons, List.length_cons]
    by_cases low : a.toNat ≤ 0x7f
    · rw [if_pos low, if_neg (by simp; omega)]
      simp only [List.length_cons, List.length_nil]
      omega
    · rw [if_neg low, if_pos (by omega), if_pos (by simp; omega)]
      simp only [List.length_cons, List.length_nil]
      omega

end MyLsmDb
