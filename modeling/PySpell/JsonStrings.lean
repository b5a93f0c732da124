/-
# Strings of a JSON text

`parse_string` reads a string and `skip_string_raw` steps over it.  Both end just behind
the closing quote of every string that the grammar allows (`parseString_eq`,
`skipStringRaw_eq`), so they agree; but `parse_string` reads every `\u` escape on its own,
so a surrogate pair becomes two replacement characters.
-/
import PySpell.Json
import PySpell.Lib.Cursor
import PySpell.Lib.JsonString

namespace Json

open Text JsonGrammar

/-! ## Bytes of the pieces -/

/-- A byte that may stand in the middle of a string. -/
def IsInner (x : UInt8) : Prop := x ≠ ch '"' ∧ x ≠ ch '\\'

theorem ch_toNat {c : Char} (h : c.toNat < 0x80) : (ch c).toNat = c.toNat := by
  rw [ch, UInt8.toNat_ofNat', Nat.mod_eq_of_lt (by omega)]

/-- A raw character has no quote and no backslash among its bytes. -/
theorem isInner_raw (c : Raw) : ∀ x ∈ bytes [c.1], IsInner x := by
  obtain ⟨c, hquote, hslash, -⟩ := c
  intro x hx
  rw [← utf8_ofList] at hx
  constructor
  · rintro rfl
    have hmem := mem_of_ascii_mem_utf8 (by decide) hx
    rw [String.toList_ofList, List.mem_singleton] at hmem
    exact hquote hmem.symm
  · rintro rfl
    have hmem := mem_of_ascii_mem_utf8 (by decide) hx
    rw [String.toList_ofList, List.mem_singleton] at hmem
    exact hslash hmem.symm

/-- The ranges of the hexadecimal digits. -/
theorem Hex.cases (h : Hex) : (48 ≤ h.1.toNat ∧ h.1.toNat ≤ 57 ∧ h.val = h.1.toNat - 48) ∨
    (97 ≤ h.1.toNat ∧ h.1.toNat ≤ 102 ∧ h.val = h.1.toNat - 87) ∨
    (65 ≤ h.1.toNat ∧ h.1.toNat ≤ 70 ∧ h.val = h.1.toNat - 55) := by
  obtain ⟨c, hc⟩ := h
  have hle : ∀ a b : Char, a ≤ b ↔ a.toNat ≤ b.toNat := fun a b => Iff.rfl
  have hdigit : c.isDigit = true ↔ 48 ≤ c.toNat ∧ c.toNat ≤ 57 := by
    rw [Char.isDigit, Bool.and_eq_true, decide_eq_true_iff, decide_eq_true_iff]
    rfl
  rw [isHex, Bool.or_eq_true, Bool.or_eq_true, Bool.and_eq_true, Bool.and_eq_true, hdigit] at hc
  simp only [decide_eq_true_eq, hle] at hc
  unfold Hex.val
  simp only [hdigit, hle]
  have ha : 'a'.toNat = 97 := rfl
  have hf : 'f'.toNat = 102 := rfl
  have hA : 'A'.toNat = 65 := rfl
  have hF : 'F'.toNat = 70 := rfl
  rw [ha, hf, hA, hF] at hc
  rw [ha]
  split_ifs <;> omega

theorem hexDigit_ch (h : Hex) : hexDigit (ch h.1) = some h.val := by
  have hrange := Hex.cases h
  unfold hexDigit
  rw [ch_toNat (by omega)]
  have h0 : '0'.toNat = 48 := rfl
  have h9 : '9'.toNat = 57 := rfl
  have ha : 'a'.toNat = 97 := rfl
  have hf : 'f'.toNat = 102 := rfl
  have hA : 'A'.toNat = 65 := rfl
  have hF : 'F'.toNat = 70 := rfl
  simp only [h0, h9, ha, hf, hA, hF]
  split_ifs <;> (congr 1; omega)

theorem hex_lt (h : Hex) : h.1.toNat < 0x80 := by
  have := Hex.cases h
  omega

/-- The bytes of an escape. -/
theorem bytes_unicode (a b c d : Hex) : bytes (Piece.unicode a b c d).text =
    [ch '\\', ch 'u', ch a.1, ch b.1, ch c.1, ch d.1] := by
  have ha := hex_lt a
  have hb := hex_lt b
  have hc := hex_lt c
  have hd := hex_lt d
  rw [Piece.text, bytes_ascii]
  · rfl
  · intro x hx
    simp only [List.mem_cons, List.not_mem_nil, or_false] at hx
    rcases hx with rfl | rfl | rfl | rfl | rfl | rfl <;> first | assumption | decide

theorem bytes_short (e : Short) : bytes (Piece.short e).text = [ch '\\', ch e.letter] := by
  cases e <;> decide

theorem shortEscape_letter (e : Short) : shortEscape (ch e.letter) = some e.char := by
  cases e <;> decide

theorem isInner_hex (h : Hex) : IsInner (ch h.1) := by
  have hrange := Hex.cases h
  have hnat := ch_toNat (hex_lt h)
  have hquote : (ch '"').toNat = 34 := by decide
  have hslash : (ch '\\').toNat = 92 := by decide
  constructor
  · intro heq
    rw [heq, hquote] at hnat
    omega
  · intro heq
    rw [heq, hslash] at hnat
    omega

/-! ## Stepping over a string -/

section
variable {b r : List UInt8} {p : ℕ} {x : UInt8}

theorem skipStringLoop_inner (h : b.drop p = x :: r) (hx : IsInner x) :
    skipStringLoop b p = skipStringLoop b (p + 1) := by
  have hlt := Cursor.lt_length h
  rw [skipStringLoop, dif_pos hlt, Cursor.getElem_eq h hlt, if_neg hx.2, if_neg hx.1]

theorem skipStringLoop_escape (h : b.drop p = ch '\\' :: r) :
    skipStringLoop b p = skipStringLoop b (p + 2) := by
  have hlt := Cursor.lt_length h
  rw [skipStringLoop, dif_pos hlt, Cursor.getElem_eq h hlt, if_pos rfl]

theorem skipStringLoop_quote (h : b.drop p = ch '"' :: r) :
    skipStringLoop b p = .ok (p + 1) := by
  have hlt := Cursor.lt_length h
  rw [skipStringLoop, dif_pos hlt, Cursor.getElem_eq h hlt, if_neg (by decide), if_pos rfl]

/-- A piece is stepped over. -/
theorem skipStringLoop_piece (q : Piece) (h : b.drop p = bytes q.text ++ r) :
    skipStringLoop b p = skipStringLoop b (p + (bytes q.text).length) := by
  cases q with
  | raw c => exact Cursor.goes_on skipStringLoop_inner (isInner_raw c) h
  | short e =>
    rw [bytes_short] at h ⊢
    exact skipStringLoop_escape h
  | unicode a b' c d =>
    rw [bytes_unicode] at h ⊢
    have hdigits : b.drop (p + 2) = [ch a.1, ch b'.1, ch c.1, ch d.1] ++ r :=
      Cursor.drop_add (u := [ch '\\', ch 'u']) h
    have hinner : ∀ x ∈ [ch a.1, ch b'.1, ch c.1, ch d.1], IsInner x := by
      intro x hx
      simp only [List.mem_cons, List.not_mem_nil, or_false] at hx
      rcases hx with rfl | rfl | rfl | rfl <;> exact isInner_hex _
    rw [skipStringLoop_escape h, Cursor.goes_on skipStringLoop_inner hinner hdigits]
    rfl

theorem skipStringLoop_pieces (ps : List Piece) (h : b.drop p = bytes (encode ps) ++ ch '"' :: r) :
    skipStringLoop b p = .ok (p + (bytes (encode ps)).length + 1) := by
  induction ps generalizing p with
  | nil => exact skipStringLoop_quote h
  | cons q ps ih =>
    rw [encode_cons, bytes_append, List.append_assoc] at h
    rw [skipStringLoop_piece q h, ih (Cursor.drop_add h), encode_cons, bytes_append,
      List.length_append]
    congr 1
    omega

end

/-- The bytes of a string with its quotes. -/
def quoted (ps : List Piece) : List UInt8 := bytes ('"' :: encode ps ++ ['"'])

theorem quoted_eq (ps : List Piece) : quoted ps = ch '"' :: bytes (encode ps) ++ [ch '"'] := by
  rw [quoted, List.cons_append, bytes_cons (by decide), bytes_append]
  rfl

theorem length_quoted (ps : List Piece) : (quoted ps).length = (bytes (encode ps)).length + 2 := by
  rw [quoted_eq, List.length_append, List.length_cons, List.length_singleton]

/-- What stands behind the opening quote. -/
theorem drop_quoted {b r : List UInt8} {p : ℕ} {ps : List Piece} (h : b.drop p = quoted ps ++ r) :
    b.drop (p + 1) = bytes (encode ps) ++ ch '"' :: r := by
  rw [quoted_eq, List.cons_append, List.cons_append, List.append_assoc] at h
  exact Cursor.drop_succ h

/-- **`skip_string_raw` moves past exactly one string.** -/
theorem skipStringRaw_eq {b r : List UInt8} {p : ℕ} (ps : List Piece)
    (h : b.drop p = quoted ps ++ r) : skipStringRaw b p = .ok (p + (quoted ps).length) := by
  rw [skipStringRaw, skipStringLoop_pieces ps (drop_quoted h), length_quoted]
  congr 1
  omega

/-! ## Reading a string -/

section
variable {b r : List UInt8} {p : ℕ} {x : UInt8} {out : String}

theorem rawRun_inner (h : b.drop p = x :: r) (hx : IsInner x) : rawRun b p = rawRun b (p + 1) := by
  have hlt := Cursor.lt_length h
  have hnot : ¬ (x = ch '"' ∨ x = ch '\\') := fun h => h.elim hx.1 hx.2
  rw [rawRun, dif_pos hlt, Cursor.getElem_eq h hlt, if_neg hnot]

/-- A run that is not empty starts at a raw byte. -/
theorem inner_of_rawRun_ne (h : rawRun b p ≠ p) :
    ∃ hlt : p < b.length, ¬ b[p] = ch '"' ∧ ¬ b[p] = ch '\\' := by
  rw [rawRun] at h
  split at h
  · next hlt =>
    split at h
    · exact absurd rfl h
    · next hne => exact ⟨hlt, fun hq => hne (.inl hq), fun hs => hne (.inr hs)⟩
  · exact absurd rfl h

/-- At a raw byte a whole run is read. -/
theorem parseStringLoop_run (h : rawRun b p ≠ p) :
    (∀ s, fromUtf8 ((b.drop p).take (rawRun b p - p)) = .ok s →
      parseStringLoop b p out = parseStringLoop b (rawRun b p) (out ++ s)) ∧
    ∀ n, fromUtf8 ((b.drop p).take (rawRun b p - p)) = .error n →
      parseStringLoop b p out = err "json: bad utf-8" := by
  obtain ⟨hlt, hquote, hslash⟩ := inner_of_rawRun_ne h
  constructor
  · intro s hs
    rw [parseStringLoop, dif_pos hlt, if_neg hquote, if_neg hslash]
    split
    · next n hn => rw [hs] at hn; cases hn
    · next s' hs' => rw [Except.ok.inj (hs'.symm.trans hs)]
  · intro n hn
    rw [parseStringLoop, dif_pos hlt, if_neg hquote, if_neg hslash]
    split
    · rfl
    · next s' hs' => rw [hn] at hs'; cases hs'

/-- **Reading a run is reading its characters.** -/
theorem parseStringLoop_raw (c : Raw) (h : b.drop p = bytes [c.1] ++ r) :
    parseStringLoop b p out = parseStringLoop b (p + (bytes [c.1]).length) (out.push c.1) := by
  have hrun := Cursor.goes_on rawRun_inner (isInner_raw c) h
  have hrest := Cursor.drop_add h
  have hpos : 0 < (bytes [c.1]).length := by
    have hne := String.utf8EncodeChar_ne_nil (c := c.1)
    rw [bytes, List.flatMap_singleton]
    exact List.length_pos_of_ne_nil hne
  have hpush : ∀ s, out.push c.1 ++ s = out ++ (String.ofList [c.1] ++ s) := by
    intro s
    rw [← String.append_assoc]
    rfl
  generalize hq : p + (bytes [c.1]).length = q at hrun hrest ⊢
  have hle := le_rawRun b q
  have hne : rawRun b p ≠ p := by omega
  have htake : (b.drop p).take (rawRun b p - p) =
      bytes [c.1] ++ (b.drop q).take (rawRun b q - q) := by
    have hsplit : rawRun b p - p = (bytes [c.1]).length + (rawRun b q - q) := by omega
    rw [hsplit, h, List.take_length_add_append, hrest]
  by_cases hend : rawRun b q = q
  · -- the character ends the run
    have hutf8 : fromUtf8 ((b.drop p).take (rawRun b p - p)) = .ok (String.ofList [c.1] ++ "") := by
      rw [htake, hend, Nat.sub_self, List.take_zero]
      exact fromUtf8_bytes_append [c.1] (s := "") (fromUtf8_utf8 "")
    rw [(parseStringLoop_run hne).1 _ hutf8, hrun, hend, ← hpush]
    congr 1
    exact String.append_empty
  · cases hx : fromUtf8 ((b.drop q).take (rawRun b q - q)) with
    | ok s =>
      have hutf8 := fromUtf8_bytes_append [c.1] hx
      rw [← htake] at hutf8
      rw [(parseStringLoop_run hne).1 _ hutf8, hrun, (parseStringLoop_run hend).1 _ hx, hpush]
    | error n =>
      obtain ⟨m, hm⟩ := fromUtf8_bytes_append_error [c.1] hx
      rw [← htake] at hm
      rw [(parseStringLoop_run hne).2 _ hm, (parseStringLoop_run hend).2 _ hx]

theorem parseStringLoop_quote (h : b.drop p = ch '"' :: r) :
    parseStringLoop b p out = .ok (out, p + 1) := by
  have hlt := Cursor.lt_length h
  rw [parseStringLoop, dif_pos hlt, Cursor.getElem_eq h hlt, if_pos rfl]

theorem parseStringLoop_escape {c : Char} {q : ℕ} (h : b.drop p = ch '\\' :: r)
    (hc : parseEscape b p = .ok (c, q)) :
    parseStringLoop b p out = parseStringLoop b q (out.push c) := by
  have hlt := Cursor.lt_length h
  have hget := Cursor.getElem_eq h hlt
  rw [parseStringLoop, dif_pos hlt, if_neg (by rw [hget]; decide), if_pos hget]
  split
  · next e he => rw [hc] at he; cases he
  · next c' q' he =>
    obtain ⟨rfl, rfl⟩ := Prod.mk.inj (Except.ok.inj (he.symm.trans hc))
    rfl

/-- The four digits of an escape. -/
theorem hex4_eq (a b' c d : Hex) (h : b.drop p = [ch a.1, ch b'.1, ch c.1, ch d.1] ++ r) :
    hex4 b p = .ok (((a.val * 16 + b'.val) * 16 + c.val) * 16 + d.val) := by
  have hlen : p + 4 ≤ b.length := by
    have hcount := congrArg List.length h
    rw [List.length_drop, List.length_append] at hcount
    simp only [List.length_cons, List.length_nil] at hcount
    omega
  rw [hex4, if_neg (by omega), h]
  have htake : ([ch a.1, ch b'.1, ch c.1, ch d.1] ++ r).take 4 =
      [ch a.1, ch b'.1, ch c.1, ch d.1] := rfl
  rw [htake]
  simp only [List.foldlM_cons, List.foldlM_nil, hexDigit_ch]
  show Except.ok _ = Except.ok _
  rw [Nat.zero_mul, Nat.zero_add]

/-! ### Piece by piece -/

/-- **A piece is read as its character.** -/
theorem parseStringLoop_piece (q : Piece) (h : b.drop p = bytes q.text ++ r) :
    parseStringLoop b p out =
      parseStringLoop b (p + (bytes q.text).length) (out.push q.char) := by
  cases q with
  | raw c => exact parseStringLoop_raw c h
  | short e =>
    rw [bytes_short] at h ⊢
    apply parseStringLoop_escape h
    have hnext := Cursor.getElem?_eq (Cursor.drop_succ h)
    rw [parseEscape, hnext]
    dsimp only
    rw [shortEscape_letter]
    rfl
  | unicode a b' c d =>
    rw [bytes_unicode] at h ⊢
    apply parseStringLoop_escape h
    have hnext := Cursor.getElem?_eq (Cursor.drop_succ h)
    have hdigits : b.drop (p + 2) = [ch a.1, ch b'.1, ch c.1, ch d.1] ++ r :=
      Cursor.drop_add (u := [ch '\\', ch 'u']) h
    have hshort : shortEscape (ch 'u') = none := by decide
    rw [parseEscape, hnext]
    dsimp only
    rw [hshort]
    dsimp only
    rw [if_pos rfl, hex4_eq a b' c d hdigits]
    rfl

theorem parseStringLoop_pieces (ps : List Piece) (h : b.drop p = bytes (encode ps) ++ ch '"' :: r) :
    parseStringLoop b p out =
      .ok (out ++ String.ofList (ps.map Piece.char), p + (bytes (encode ps)).length + 1) := by
  induction ps generalizing p out with
  | nil =>
    rw [parseStringLoop_quote h]
    congr 2
    exact String.append_empty.symm
  | cons q ps ih =>
    rw [encode_cons, bytes_append, List.append_assoc] at h
    have hpush : out.push q.char ++ String.ofList (ps.map Piece.char) =
        out ++ String.ofList ((q :: ps).map Piece.char) := by
      rw [← String.toList_inj]
      simp
    rw [parseStringLoop_piece q h, ih (Cursor.drop_add h), hpush, encode_cons, bytes_append,
      List.length_append]
    congr 2
    omega

end

/-- **`parse_string` reads every piece on its own**, and ends behind the string. -/
theorem parseString_eq {b r : List UInt8} {p : ℕ} (ps : List Piece)
    (h : b.drop p = quoted ps ++ r) :
    parseString b p = .ok (String.ofList (ps.map Piece.char), p + (quoted ps).length) := by
  rw [parseString, parseStringLoop_pieces ps (drop_quoted h), length_quoted,
    String.empty_append]
  congr 2
  omega

/-! ## Full decoding -/

/-- `parse_string` returns the string that the pieces stand for and the position behind the
closing quote, where `skip_string_raw` ends as well. -/
def DecodesFully (pre : List UInt8) (ps : List Piece) (post : List UInt8) : Prop :=
  parseString (pre ++ quoted ps ++ post) pre.length =
      .ok (String.ofList (decode ps), pre.length + (quoted ps).length) ∧
    skipStringRaw (pre ++ quoted ps ++ post) pre.length = .ok (pre.length + (quoted ps).length)

/-- **A string decodes fully exactly if it has no surrogate pair**, whatever stands before
and behind it. -/
theorem decodesFully_iff (pre : List UInt8) (ps : List Piece) (post : List UInt8) :
    DecodesFully pre ps post ↔ NoPair ps := by
  have hdrop : (pre ++ quoted ps ++ post).drop pre.length = quoted ps ++ post := by
    rw [List.append_assoc, List.drop_left]
  rw [DecodesFully, parseString_eq ps hdrop, skipStringRaw_eq ps hdrop, ← decode_eq_map_iff]
  constructor
  · rintro ⟨h, -⟩
    have hchars := congrArg String.toList (Prod.mk.inj (Except.ok.inj h)).1
    rw [String.toList_ofList, String.toList_ofList] at hchars
    exact hchars.symm
  · intro h
    rw [h]
    exact ⟨rfl, rfl⟩

/-- The text `\ud83d\ude00`. -/
def grin : List Piece :=
  [.unicode ⟨'d', rfl⟩ ⟨'8', rfl⟩ ⟨'3', rfl⟩ ⟨'d', rfl⟩,
    .unicode ⟨'d', rfl⟩ ⟨'e', rfl⟩ ⟨'0', rfl⟩ ⟨'0', rfl⟩]

/-- **A surrogate pair is not put together**: the escapes of U+1F600 are read as two
replacement characters. -/
theorem pair_not_decoded : decode grin = [Char.ofNat 0x1f600] ∧
    parseString (quoted grin) 0 =
      .ok (String.ofList [Char.ofNat 0xfffd, Char.ofNat 0xfffd], (quoted grin).length) ∧
    ¬ DecodesFully [] grin [] := by
  have hdrop : (quoted grin).drop 0 = quoted grin ++ [] := (List.append_nil _).symm
  refine ⟨by decide, ?_, ?_⟩
  · rw [parseString_eq grin hdrop, Nat.zero_add]
    rfl
  · rw [decodesFully_iff, ← decode_eq_map_iff]
    decide

end Json
