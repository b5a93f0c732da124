/-
# Navigation in a JSON text

`json::get` never builds a document: it steps over the values before the one it looks
for.  `skip_value` moves past exactly one value of every JSON text (`skipValue_eq`), since
a bracket or a quote inside a string is stepped over with the string (`level_doc`), so
`enter` lands on the value that the lookup in the document gives (`enter_lands`), and
`get` returns its scalar.
-/
import PySpell.JsonPrefix
import PySpell.JsonStrings
import PySpell.Lib.JsonDocument

namespace Json

open Text JsonGrammar

/-! ## Scanning -/

/-- What follows a scalar: the end of the text or a delimiter. -/
def Ends (r : List UInt8) : Prop := ∀ x t, r = x :: t → isDelim x = true

section
variable {b r u : List UInt8} {p : ℕ} {x : UInt8}

/-- White space ends a number or a word. -/
theorem isDelim_of_isWs (h : isWs x = true) : isDelim x = true := by
  rw [isDelim, h, Bool.or_true]

/-- Nothing is skipped where no white space is. -/
theorem skipWs_stop (h : ∀ x t, b.drop p = x :: t → isWs x = false) : skipWs b p = p := by
  rw [skipWs]
  split
  · next hlt =>
    rw [h _ _ (List.drop_eq_getElem_cons hlt)]
    rfl
  · rfl

/-- White space is skipped, and nothing behind it. -/
theorem skipWs_blank (hu : ∀ x ∈ u, isWs x = true) (hr : ∀ x t, r = x :: t → isWs x = false)
    (h : b.drop p = u ++ r) : skipWs b p = p + u.length := by
  have hstep : ∀ {p : ℕ} {x : UInt8} {r : List UInt8}, b.drop p = x :: r → isWs x = true →
      skipWs b p = skipWs b (p + 1) := by
    intro p x r h hx
    have hlt := Cursor.lt_length h
    conv_lhs => rw [skipWs, dif_pos hlt, Cursor.getElem_eq h hlt, if_pos hx]
  rw [Cursor.goes_on hstep hu h]
  apply skipWs_stop
  rw [Cursor.drop_add h]
  exact hr

/-- A number or a word is scanned to its end. -/
theorem scanToken_eq (hu : ∀ x ∈ u, isDelim x = false) (hr : Ends r) (h : b.drop p = u ++ r) :
    scanToken b p = p + u.length := by
  have hstep : ∀ {p : ℕ} {x : UInt8} {r : List UInt8}, b.drop p = x :: r → isDelim x = false →
      scanToken b p = scanToken b (p + 1) := by
    intro p x r h hx
    have hlt := Cursor.lt_length h
    conv_lhs => rw [scanToken, dif_pos hlt, Cursor.getElem_eq h hlt, hx]
    rfl
  rw [Cursor.goes_on hstep hu h, scanToken]
  have hrest := Cursor.drop_add h
  split
  · next hlt =>
    rw [if_pos (hr _ _ (hrest.symm.trans (List.drop_eq_getElem_cons hlt)))]
  · rfl

end

/-! ## Levels of brackets -/

/-- Bytes that the container loop steps over and ends at the same depth. -/
def Level (u : List UInt8) : Prop :=
  ∀ ⦃b r : List UInt8⦄ ⦃p k : ℕ⦄, b.drop p = u ++ r →
    skipContainer b p (k + 1) = skipContainer b (p + u.length) (k + 1)

/-- A byte that is no quote and no bracket. -/
def IsPlain (x : UInt8) : Prop :=
  x ≠ ch '"' ∧ x ≠ ch '\x7b' ∧ x ≠ ch '[' ∧ x ≠ ch '\x7d' ∧ x ≠ ch ']'

/-- Texts that leave the depth alone do so one behind the other. -/
theorem level_append {u v : List UInt8} (hu : Level u) (hv : Level v) : Level (u ++ v) := by
  intro b r p k h
  rw [List.append_assoc] at h
  rw [hu h, hv (Cursor.drop_add h), List.length_append, Nat.add_assoc]

/-- Bytes that are neither brackets nor quotes leave the depth alone. -/
theorem level_plain {u : List UInt8} (hu : ∀ x ∈ u, IsPlain x) : Level u := by
  intro b r p k h
  refine Cursor.goes_on (f := fun p => skipContainer b p (k + 1)) (P := IsPlain) ?_ hu h
  intro p x r h hx
  have hlt := Cursor.lt_length h
  obtain ⟨hquote, hbrace, hbracket, hbrace', hbracket'⟩ := hx
  rw [skipContainer, dif_pos hlt, Cursor.getElem_eq h hlt, if_neg hquote,
    if_neg (fun h => h.elim hbrace hbracket), if_neg (fun h => h.elim hbrace' hbracket')]

/-- So does a string, whatever is in it: the scanner skips it as a whole. -/
theorem level_quoted (ps : List Piece) : Level (quoted ps) := by
  intro b r p k h
  have hskip := skipStringRaw_eq ps h
  have hquote : b.drop p = ch '"' :: (bytes (encode ps) ++ [ch '"'] ++ r) := by
    rw [h, quoted_eq, List.cons_append, List.cons_append]
  have hlt := Cursor.lt_length hquote
  rw [skipContainer, dif_pos hlt, if_pos (Cursor.getElem_eq hquote hlt)]
  split
  · next e he => rw [hskip] at he; cases he
  · next q hq => rw [Except.ok.inj (hq.symm.trans hskip)]

/-- The two brackets of a container. -/
def Brackets (l r : Char) : Prop := (l = '[' ∧ r = ']') ∨ (l = '\x7b' ∧ r = '\x7d')

/-- An opening bracket goes one level down. -/
theorem skipContainer_open {b r : List UInt8} {p k : ℕ} {l r' : Char} (hlr : Brackets l r')
    (h : b.drop p = ch l :: r) : skipContainer b p k = skipContainer b (p + 1) (k + 1) := by
  have hlt := Cursor.lt_length h
  rw [skipContainer, dif_pos hlt, Cursor.getElem_eq h hlt]
  rcases hlr with ⟨rfl, rfl⟩ | ⟨rfl, rfl⟩
  · rw [if_neg (by decide), if_pos (by decide)]
  · rw [if_neg (by decide), if_pos (by decide)]

/-- A closing bracket comes one level up, and ends the container at the first level. -/
theorem skipContainer_close {b r : List UInt8} {p k : ℕ} {l r' : Char} (hlr : Brackets l r')
    (h : b.drop p = ch r' :: r) : skipContainer b p k =
      if k = 1 then .ok (p + 1) else skipContainer b (p + 1) (k - 1) := by
  have hlt := Cursor.lt_length h
  rw [skipContainer, dif_pos hlt, Cursor.getElem_eq h hlt]
  rcases hlr with ⟨rfl, rfl⟩ | ⟨rfl, rfl⟩
  · rw [if_neg (by decide), if_neg (by decide), if_pos (by decide)]
  · rw [if_neg (by decide), if_neg (by decide), if_pos (by decide)]

/-- The bytes of a container. -/
def inBrackets (l r : Char) (u : List UInt8) : List UInt8 := ch l :: (u ++ [ch r])

/-- What stands behind the opening bracket, and behind the contents. -/
theorem drop_inBrackets {b r u : List UInt8} {p : ℕ} {l r' : Char}
    (h : b.drop p = inBrackets l r' u ++ r) :
    b.drop (p + 1) = u ++ ch r' :: r ∧ b.drop (p + 1 + u.length) = ch r' :: r := by
  rw [inBrackets, List.cons_append, List.append_assoc] at h
  exact ⟨Cursor.drop_succ h, Cursor.drop_add (Cursor.drop_succ h)⟩

/-- What stands in brackets leaves the depth alone, with them. -/
theorem level_brackets {l r : Char} (hlr : Brackets l r) {u : List UInt8} (hu : Level u) :
    Level (inBrackets l r u) := by
  intro b t p k h
  obtain ⟨hinside, hclose⟩ := drop_inBrackets h
  rw [skipContainer_open hlr h, hu hinside, skipContainer_close hlr hclose, if_neg (by omega),
    inBrackets, List.length_cons, List.length_append, List.length_singleton]
  congr 1
  omega

/-- A whole container. -/
theorem skipContainer_brackets {l r : Char} (hlr : Brackets l r) {u : List UInt8} (hu : Level u)
    {b t : List UInt8} {p : ℕ} (h : b.drop p = inBrackets l r u ++ t) :
    skipContainer b p 0 = .ok (p + (inBrackets l r u).length) := by
  obtain ⟨hinside, hclose⟩ := drop_inBrackets h
  rw [skipContainer_open hlr h, hu hinside, skipContainer_close hlr hclose, if_pos rfl,
    inBrackets, List.length_cons, List.length_append, List.length_singleton]
  congr 1
  omega

/-! ## The texts of values -/

/-- The characters of the scalars that are no strings. -/
def IsToken (c : Char) : Prop :=
  c.isDigit = true ∨ c = '-' ∨ c = '+' ∨ c = '.' ∨ (97 ≤ c.toNat ∧ c.toNat ≤ 122) ∨ c = 'E'

/-- Different characters of ASCII are different bytes. -/
theorem ne_ch {c d : Char} (hc : c.toNat < 0x80) (hd : d.toNat < 0x80) (h : c ≠ d) :
    ch c ≠ ch d := by
  intro heq
  have hnat := congrArg UInt8.toNat heq
  rw [ch_toNat hc, ch_toNat hd] at hnat
  exact h (Char.toNat_inj.mp hnat)

/-- The characters of numbers and words are bytes of their own that are neither delimiters nor
brackets. -/
theorem token_facts {c : Char} (h : IsToken c) :
    c.toNat < 0x80 ∧ isDelim (ch c) = false ∧ IsPlain (ch c) := by
  have hrange : c.toNat < 0x80 ∧ c.toNat ≠ 9 ∧ c.toNat ≠ 10 ∧ c.toNat ≠ 13 ∧ c.toNat ≠ 32 ∧
      c.toNat ≠ 34 ∧ c.toNat ≠ 44 ∧ c.toNat ≠ 91 ∧ c.toNat ≠ 93 ∧ c.toNat ≠ 123 ∧
      c.toNat ≠ 125 := by
    rcases h with h | rfl | rfl | rfl | h | rfl
    · rw [Char.isDigit, Bool.and_eq_true, decide_eq_true_iff, decide_eq_true_iff] at h
      have h1 : 48 ≤ c.toNat := h.1
      have h2 : c.toNat ≤ 57 := h.2
      omega
    · decide
    · decide
    · decide
    · omega
    · decide
  have hne : ∀ d : Char, c.toNat ≠ d.toNat → d.toNat < 0x80 → ch c ≠ ch d := fun d hd hlt =>
    ne_ch hrange.1 hlt fun heq => hd (heq ▸ rfl)
  obtain ⟨hlt, h9, h10, h13, h32, h34, h44, h91, h93, h123, h125⟩ := hrange
  refine ⟨hlt, ?_, ?_⟩
  · simp [isDelim, isWs, hne ',' h44 (by decide), hne '\x7d' h125 (by decide),
      hne ']' h93 (by decide), hne ' ' h32 (by decide), hne '\t' h9 (by decide),
      hne '\r' h13 (by decide), hne '\n' h10 (by decide)]
  · exact ⟨hne '"' h34 (by decide), hne '\x7b' h123 (by decide), hne '[' h91 (by decide),
      hne '\x7d' h125 (by decide), hne ']' h93 (by decide)⟩

/-- A list of characters that stand for single bytes. -/
theorem mem_bytes {cs : List Char} (h : ∀ c ∈ cs, c.toNat < 0x80) {x : UInt8}
    (hx : x ∈ bytes cs) : ∃ c ∈ cs, x = ch c := by
  rw [bytes_ascii h, List.mem_map] at hx
  obtain ⟨c, hc, rfl⟩ := hx
  exact ⟨c, hc, rfl⟩

/-- So are the bytes of such a text. -/
theorem bytes_token {cs : List Char} (h : ∀ c ∈ cs, IsToken c) {x : UInt8} (hx : x ∈ bytes cs) :
    isDelim x = false ∧ IsPlain x := by
  obtain ⟨c, hc, rfl⟩ := mem_bytes (fun c hc => (token_facts (h c hc)).1) hx
  exact (token_facts (h c hc)).2

/-- The whitespace of the grammar. -/
theorem bytes_blank (w : Blank) {x : UInt8} (hx : x ∈ bytes w.1) :
    isWs x = true ∧ IsPlain x := by
  have hchars : ∀ c ∈ w.1, c = ' ' ∨ c = '\t' ∨ c = '\n' ∨ c = '\r' := by
    intro c hc
    have hws := List.all_eq_true.mp w.2 c hc
    simpa [JsonGrammar.isWs, or_assoc] using hws
  have hascii : ∀ c ∈ w.1, c.toNat < 0x80 := by
    intro c hc
    rcases hchars c hc with rfl | rfl | rfl | rfl <;> decide
  obtain ⟨c, hc, rfl⟩ := mem_bytes hascii hx
  rcases hchars c hc with rfl | rfl | rfl | rfl <;> exact ⟨by decide, by unfold IsPlain; decide⟩

/-- A number is a text of such characters. -/
theorem isToken_number (n : Number) : ∀ c ∈ n.text, IsToken c :=
  n.forall_mem_text .inl (.inr (.inl rfl)) (.inr (.inr (.inl rfl))) (.inr (.inr (.inr (.inl rfl))))
    (.inr (.inr (.inr (.inr (.inl (by decide)))))) (.inr (.inr (.inr (.inr (.inr rfl)))))

/-! ## Stepping over a value -/

/-- White space leaves the depth alone. -/
theorem level_blank (w : Blank) : Level (bytes w.1) :=
  level_plain fun _ hx => (bytes_blank w hx).2

/-- So does a number or a word. -/
theorem level_token {cs : List Char} (h : ∀ c ∈ cs, IsToken c) : Level (bytes cs) :=
  level_plain fun _ hx => (bytes_token h hx).2

/-- The three words are texts of such characters. -/
theorem isToken_literal (d : Doc) (h : d = .null ∨ ∃ b, d = .bool b) :
    ∀ c ∈ d.text, IsToken c := by
  have hlower : ∀ cs : List Char, (cs.all fun c => decide (97 ≤ c.toNat ∧ c.toNat ≤ 122)) →
      ∀ c ∈ cs, IsToken c := fun cs h c hc =>
    .inr (.inr (.inr (.inr (.inl (of_decide_eq_true (List.all_eq_true.mp h c hc))))))
  rcases h with rfl | ⟨_ | _, rfl⟩
  · exact hlower "null".toList (by decide)
  · exact hlower "false".toList (by decide)
  · exact hlower "true".toList (by decide)

/-! ### Brackets, keys and commas -/

/-- The bytes of a container. -/
theorem bytes_brackets {l r : Char} (hlr : Brackets l r) (cs : List Char) :
    bytes (l :: cs ++ [r]) = inBrackets l r (bytes cs) := by
  rw [List.cons_append, inBrackets]
  rcases hlr with ⟨rfl, rfl⟩ | ⟨rfl, rfl⟩
  · rw [bytes_cons (by decide), bytes_append]
    rfl
  · rw [bytes_cons (by decide), bytes_append]
    rfl

/-- A key in bytes: the string, its colon and the white space around them. -/
theorem bytes_keyText (before : Blank) (key : List Piece) (mid gap : Blank) :
    bytes (keyText before key mid gap) =
      bytes before.1 ++ quoted key ++ bytes mid.1 ++ ch ':' :: bytes gap.1 := by
  rw [keyText, bytes_append, bytes_append, bytes_append, bytes_cons (by decide)]
  rfl

/-- A key leaves the depth alone, up to its colon. -/
theorem level_keyText (before : Blank) (key : List Piece) (mid gap : Blank) :
    Level (bytes (keyText before key mid gap)) := by
  have hcolon : Level [ch ':'] :=
    level_plain (List.forall_mem_singleton.mpr (by unfold IsPlain; decide))
  rw [bytes_keyText, ← List.singleton_append]
  exact level_append (level_append (level_append (level_blank before) (level_quoted key))
    (level_blank mid)) (level_append hcolon (level_blank gap))

/-- So does a comma. -/
theorem level_comma {u : List UInt8} (hu : Level u) : Level (ch ',' :: u) :=
  level_append (u := [ch ','])
    (level_plain (List.forall_mem_singleton.mpr (by unfold IsPlain; decide))) hu

/-- The bytes of an item and of the items behind it. -/
theorem bytes_item (head : List Char) (d : Doc) (after : Blank) :
    bytes (head ++ d.text ++ after.1) = bytes head ++ bytes d.text ++ bytes after.1 := by
  rw [bytes_append, bytes_append]

/-- A comma is a byte of its own. -/
theorem bytes_comma (cs ds : List Char) :
    bytes (cs ++ ',' :: ds) = bytes cs ++ ch ',' :: bytes ds := by
  rw [bytes_append, bytes_cons (by decide)]
  rfl

/-! ### Whole documents -/

mutual

/-- **The container loop steps over every value.** -/
theorem level_doc : ∀ d : Doc, Level (bytes d.text)
  | .null => level_token (isToken_literal .null (.inl rfl))
  | .bool b => level_token (isToken_literal (.bool b) (.inr ⟨b, rfl⟩))
  | .number n => level_token (isToken_number n)
  | .string s => level_quoted s
  | .emptyArray w => by
    rw [Doc.text, bytes_brackets (.inl ⟨rfl, rfl⟩)]
    exact level_brackets (.inl ⟨rfl, rfl⟩) (level_blank w)
  | .array items => by
    rw [Doc.text, bytes_brackets (.inl ⟨rfl, rfl⟩)]
    exact level_brackets (.inl ⟨rfl, rfl⟩) (level_items items)
  | .emptyObject w => by
    rw [Doc.text, bytes_brackets (.inr ⟨rfl, rfl⟩)]
    exact level_brackets (.inr ⟨rfl, rfl⟩) (level_blank w)
  | .object members => by
    rw [Doc.text, bytes_brackets (.inr ⟨rfl, rfl⟩)]
    exact level_brackets (.inr ⟨rfl, rfl⟩) (level_members members)

/-- The items of an array leave the depth alone: mutual induction with the values and the
members. -/
theorem level_items : ∀ items : Items, Level (bytes items.text)
  | .last before d after => by
    rw [Items.text, bytes_item]
    exact level_append (level_append (level_blank before) (level_doc d)) (level_blank after)
  | .cons before d after rest => by
    rw [Items.text, bytes_comma, bytes_item]
    exact level_append
      (level_append (level_append (level_blank before) (level_doc d)) (level_blank after))
      (level_comma (level_items rest))

/-- So do the members of an object. -/
theorem level_members : ∀ members : Members, Level (bytes members.text)
  | .last before key mid gap d after => by
    rw [Members.text, bytes_item]
    exact level_append (level_append (level_keyText before key mid gap) (level_doc d))
      (level_blank after)
  | .cons before key mid gap d after rest => by
    rw [Members.text, bytes_comma, bytes_item]
    exact level_append
      (level_append (level_append (level_keyText before key mid gap) (level_doc d))
        (level_blank after))
      (level_comma (level_members rest))

end

/-! ### One value -/

/-- A number has a digit. -/
theorem number_ne_nil (n : Number) : n.text ≠ [] := by
  have hwhole := (whole_all n.whole).1
  simp [Number.text, hwhole]

/-- The scalars that are no strings. -/
def IsTokenDoc : Doc → Prop
  | .null => True
  | .bool _ => True
  | .number _ => True
  | _ => False

/-- A value without brackets or quotes is a text that is not empty, of such characters. -/
theorem tokenDoc_facts {d : Doc} (h : IsTokenDoc d) :
    d.text ≠ [] ∧ ∀ c ∈ d.text, IsToken c := by
  cases d with
  | null => exact ⟨by decide, isToken_literal .null (.inl rfl)⟩
  | bool b => exact ⟨by cases b <;> decide, isToken_literal (.bool b) (.inr ⟨b, rfl⟩)⟩
  | number n => exact ⟨number_ne_nil n, isToken_number n⟩
  | _ => exact h.elim

/-- The first byte of a value is no delimiter. -/
theorem doc_start (d : Doc) : ∃ x t, bytes d.text = x :: t ∧ isDelim x = false := by
  have htoken : IsTokenDoc d → ∃ x t, bytes d.text = x :: t ∧ isDelim x = false := by
    intro h
    obtain ⟨hne, hall⟩ := tokenDoc_facts h
    obtain ⟨c, t, hct⟩ := List.exists_cons_of_ne_nil hne
    have hfacts := token_facts (hall c (hct ▸ List.mem_cons_self))
    exact ⟨ch c, bytes t, by rw [hct, bytes_cons hfacts.1]; rfl, hfacts.2.1⟩
  cases d with
  | null => exact htoken trivial
  | bool b => exact htoken trivial
  | number n => exact htoken trivial
  | string s => exact ⟨_, _, quoted_eq s, by decide⟩
  | emptyArray w => exact ⟨_, _, bytes_brackets (.inl ⟨rfl, rfl⟩) w.1, by decide⟩
  | array items => exact ⟨_, _, bytes_brackets (.inl ⟨rfl, rfl⟩) items.text, by decide⟩
  | emptyObject w => exact ⟨_, _, bytes_brackets (.inr ⟨rfl, rfl⟩) w.1, by decide⟩
  | object members => exact ⟨_, _, bytes_brackets (.inr ⟨rfl, rfl⟩) members.text, by decide⟩

/-- What ends no number is no white space. -/
theorem isWs_of_isDelim_false {x : UInt8} (h : isDelim x = false) : isWs x = false := by
  cases hws : isWs x with
  | false => rfl
  | true => rw [isDelim_of_isWs hws] at h; cases h

section
variable {b r : List UInt8} {p : ℕ}

/-- A value begins with no white space. -/
theorem skipWs_doc (d : Doc) (h : b.drop p = bytes d.text ++ r) : skipWs b p = p := by
  obtain ⟨x, t, hx, hdelim⟩ := doc_start d
  apply skipWs_stop
  intro y t' hy
  rw [h, hx] at hy
  obtain ⟨rfl, -⟩ := List.cons.inj hy
  exact isWs_of_isDelim_false hdelim

/-- **`skip_value` moves past exactly one value.** -/
theorem skipValue_eq (d : Doc) (h : b.drop p = bytes d.text ++ r) (hr : Ends r) :
    skipValue b p = .ok (p + (bytes d.text).length) := by
  have hws := skipWs_doc d h
  have htoken : IsTokenDoc d → skipValue b p = .ok (p + (bytes d.text).length) := by
    intro hd
    obtain ⟨-, hall⟩ := tokenDoc_facts hd
    obtain ⟨x, t, hx, -⟩ := doc_start d
    have hplain := (bytes_token hall (hx ▸ List.mem_cons_self)).2
    have hget : b[p]? = some x := Cursor.getElem?_eq (h.trans (by rw [hx]; rfl))
    rw [skipValue, hws, hget]
    dsimp only
    rw [if_neg (fun h => h.elim hplain.2.1 hplain.2.2.1), if_neg hplain.1,
      scanToken_eq (fun y hy => (bytes_token hall hy).1) hr h]
  have hcontainer : ∀ {l r' : Char} (_ : Brackets l r') {cs : List Char}, Level (bytes cs) →
      d.text = l :: cs ++ [r'] → skipValue b p = .ok (p + (bytes d.text).length) := by
    intro l r' hlr cs hlevel htext
    rw [htext, bytes_brackets hlr] at h ⊢
    have hget : b[p]? = some (ch l) := Cursor.getElem?_eq (h.trans List.cons_append)
    have hopen : ch l = ch '\x7b' ∨ ch l = ch '[' := by
      rcases hlr with ⟨rfl, rfl⟩ | ⟨rfl, rfl⟩
      · exact .inr rfl
      · exact .inl rfl
    rw [skipValue, hws, hget]
    dsimp only
    rw [if_pos hopen, skipContainer_brackets hlr hlevel h]
  cases d with
  | null => exact htoken trivial
  | bool b => exact htoken trivial
  | number n => exact htoken trivial
  | string s =>
    have hquoted : b.drop p = quoted s ++ r := h
    have hget : b[p]? = some (ch '"') := by
      rw [quoted_eq, List.cons_append, List.cons_append] at hquoted
      exact Cursor.getElem?_eq hquoted
    rw [skipValue, hws, hget]
    dsimp only
    rw [if_neg (by decide), if_pos rfl, skipStringRaw_eq s hquoted]
    rfl
  | emptyArray w => exact hcontainer (.inl ⟨rfl, rfl⟩) (level_blank w) rfl
  | array items => exact hcontainer (.inl ⟨rfl, rfl⟩) (level_items items) rfl
  | emptyObject w => exact hcontainer (.inr ⟨rfl, rfl⟩) (level_blank w) rfl
  | object members => exact hcontainer (.inr ⟨rfl, rfl⟩) (level_members members) rfl

/-! ## Descending -/

/-- A search has ended on a value, or has failed. -/
structure Lands (b : List UInt8) (res : Except DslError ℕ) (found : Option Doc) : Prop where
  some : ∀ d, found = some d → ∃ q r, res = .ok q ∧ b.drop q = bytes d.text ++ r ∧ Ends r
  none : found = none → ∀ q, res ≠ .ok q

/-- The walk is at the value that the tree has there. -/
theorem lands_found {res : Except DslError ℕ} {d : Doc} {q : ℕ} (hres : res = .ok q)
    (hdoc : b.drop q = bytes d.text ++ r) (hends : Ends r) : Lands b res (some d) := by
  constructor
  · intro d' hd'
    obtain rfl := Option.some.inj hd'
    exact ⟨q, r, hres, hdoc, hends⟩
  · intro hnone
    cases hnone

/-- The walk fails where the tree has nothing. -/
theorem lands_missed {res : Except DslError ℕ} (h : ∀ q, res ≠ .ok q) : Lands b res none := by
  constructor
  · intro d hd
    cases hd
  · exact fun _ => h

/-! ### Items -/

/-- A value between whitespace, with a comma or a bracket behind it. -/
structure ItemAt (b : List UInt8) (p : ℕ) (d : Doc) (y : UInt8) (r : List UInt8) : Prop where
  start : ∃ t, b.drop (skipWs b p) = bytes d.text ++ t ∧ Ends t
  skip : ∃ q, skipValue b (skipWs b p) = .ok q ∧ b[skipWs b q]? = some y ∧
    b.drop (skipWs b q + 1) = r

/-- White space or a delimiter ends what is before it. -/
theorem ends_blank (w : Blank) {y : UInt8} (hy : isDelim y = true) :
    Ends (bytes w.1 ++ y :: r) := by
  intro x t h
  cases hw : bytes w.1 with
  | nil =>
    rw [hw, List.nil_append] at h
    rw [← (List.cons.inj h).1]
    exact hy
  | cons z u =>
    rw [hw, List.cons_append] at h
    rw [← (List.cons.inj h).1]
    exact isDelim_of_isWs (bytes_blank w (hw ▸ List.mem_cons_self)).1

/-- An item is read between its white space, up to the delimiter behind it. -/
theorem itemAt {before after : Blank} {d : Doc} {y : UInt8} (hy : isDelim y = true)
    (hws : isWs y = false)
    (h : b.drop p = bytes before.1 ++ (bytes d.text ++ (bytes after.1 ++ y :: r))) :
    ItemAt b p d y r := by
  have hends := ends_blank (r := r) after hy
  have hstart : skipWs b p = p + (bytes before.1).length := by
    apply skipWs_blank (fun x hx => (bytes_blank before hx).1) _ h
    intro x t hx
    obtain ⟨z, u, hz, hdelim⟩ := doc_start d
    rw [hz] at hx
    rw [← (List.cons.inj hx).1]
    exact isWs_of_isDelim_false hdelim
  have hvalue := Cursor.drop_add h
  rw [← hstart] at hvalue
  have hrest := Cursor.drop_add hvalue
  refine ⟨⟨_, hvalue, hends⟩, _, skipValue_eq d hvalue hends, ?_⟩
  generalize skipWs b p + (bytes d.text).length = q at hrest
  have hafter : skipWs b q = q + (bytes after.1).length := by
    apply skipWs_blank (fun x hx => (bytes_blank after hx).1) _ hrest
    intro x t hx
    rw [← (List.cons.inj hx).1]
    exact hws
  have hend := Cursor.drop_add hrest
  rw [← hafter] at hend
  exact ⟨Cursor.getElem?_eq hend, Cursor.drop_succ hend⟩

/-- **An index lands on the element.** -/
theorem enterArrayLoop_lands : ∀ (items : Items) {p : ℕ} (i j : ℕ),
    b.drop p = bytes items.text ++ ch ']' :: r →
      Lands b (enterArrayLoop b p i (i + j)) (items.get? j)
  | items, p, i, j, h => by
    -- the first item, and what stands behind it
    have hfirst : ∀ {d : Doc} {y : UInt8} {t : List UInt8}, ItemAt b p d y t →
        ∃ x, b[skipWs b p]? = some x ∧ x ≠ ch ']' := by
      rintro d y t ⟨⟨u, hu, -⟩, -⟩
      obtain ⟨x, v, hx, hdelim⟩ := doc_start d
      rw [hx] at hu
      refine ⟨x, Cursor.getElem?_eq hu, ?_⟩
      rintro rfl
      exact absurd hdelim (by decide)
    have hfound : ∀ {d : Doc} {y : UInt8} {t : List UInt8}, ItemAt b p d y t →
        Lands b (enterArrayLoop b p i (i + 0)) (some d) := by
      intro d y t hitem
      obtain ⟨x, hx, hne⟩ := hfirst hitem
      obtain ⟨u, hu, hends⟩ := hitem.start
      exact lands_found (enterArrayLoop_eq_ok.mpr ⟨x, hx, hne, .inl ⟨rfl, rfl⟩⟩) hu hends
    cases items with
    | last before d after =>
      rw [Items.text, bytes_item, List.append_assoc, List.append_assoc] at h
      have hitem := itemAt (by decide) (by decide) h
      cases j with
      | zero => exact hfound hitem
      | succ j =>
        refine lands_missed fun q hq => ?_
        obtain ⟨-, -, -, ⟨hi, -⟩ | ⟨-, p₂, hskip, hcomma, -⟩⟩ := enterArrayLoop_eq_ok.mp hq
        · omega
        · obtain ⟨q', hskip', hclose, -⟩ := hitem.skip
          rw [Except.ok.inj (hskip.symm.trans hskip'), hclose] at hcomma
          exact absurd (Option.some.inj hcomma) (by decide)
    | cons before d after rest =>
      rw [Items.text, bytes_comma, bytes_item] at h
      simp only [List.append_assoc, List.cons_append] at h
      have hitem := itemAt (by decide) (by decide) h
      cases j with
      | zero => exact hfound hitem
      | succ j =>
        obtain ⟨x, hx, hne⟩ := hfirst hitem
        obtain ⟨q, hskip, hcomma, hrest⟩ := hitem.skip
        have hnext := enterArrayLoop_lands rest (i + 1) j hrest
        have hstep : ∀ q', enterArrayLoop b p i (i + (j + 1)) = .ok q' ↔
            enterArrayLoop b (skipWs b q + 1) (i + 1) (i + 1 + j) = .ok q' := by
          intro q'
          rw [enterArrayLoop_eq_ok, show i + (j + 1) = i + 1 + j by omega]
          constructor
          · rintro ⟨-, -, -, ⟨hi, -⟩ | ⟨-, p₂, hskip', -, hnext'⟩⟩
            · omega
            · rwa [Except.ok.inj (hskip.symm.trans hskip')]
          · exact fun hnext' => ⟨x, hx, hne, .inr ⟨by omega, q, hskip, hcomma, hnext'⟩⟩
        refine ⟨fun d' hd' => ?_, fun hnone q' hq' => hnext.none hnone q' ((hstep q').mp hq')⟩
        obtain ⟨q', t, hq', hdoc⟩ := hnext.some d' hd'
        exact ⟨q', t, (hstep q').mpr hq', hdoc⟩

/-! ### Members -/

/-- A key between whitespace and its colon, and the position behind it. -/
structure KeyAt (b : List UInt8) (p : ℕ) (name : String) (q : ℕ) : Prop where
  quote : b[skipWs b p]? = some (ch '"')
  parse : ∃ np, parseString b (skipWs b p) = .ok (name, np) ∧
    b[skipWs b np]? = some (ch ':') ∧ skipWs b np + 1 = q

/-- A key is read as the text that it stands for, when none of its escapes is half of a pair. -/
theorem keyAt {before mid : Blank} {key : List Piece} (hkey : NoPair key)
    (h : b.drop p = bytes before.1 ++ (quoted key ++ (bytes mid.1 ++ ch ':' :: r))) :
    ∃ q, KeyAt b p (String.ofList (decode key)) q ∧ b.drop q = r := by
  have hstart : skipWs b p = p + (bytes before.1).length := by
    apply skipWs_blank (fun x hx => (bytes_blank before hx).1) _ h
    intro x t hx
    rw [quoted_eq, List.cons_append, List.cons_append] at hx
    rw [← (List.cons.inj hx).1]
    decide
  have hstring := Cursor.drop_add h
  rw [← hstart] at hstring
  have hparse := parseString_eq key hstring
  have hrest := Cursor.drop_add hstring
  generalize skipWs b p + (quoted key).length = np at hparse hrest
  have hmid : skipWs b np = np + (bytes mid.1).length := by
    apply skipWs_blank (fun x hx => (bytes_blank mid hx).1) _ hrest
    intro x t hx
    rw [← (List.cons.inj hx).1]
    decide
  have hcolon := Cursor.drop_add hrest
  rw [← hmid] at hcolon
  rw [(decode_eq_map_iff key).mpr hkey]
  refine ⟨skipWs b np + 1, ⟨?_, np, hparse, Cursor.getElem?_eq hcolon, rfl⟩,
    Cursor.drop_succ hcolon⟩
  rw [quoted_eq, List.cons_append, List.cons_append] at hstring
  exact Cursor.getElem?_eq hstring

/-- One round of the object loop behind a key. -/
theorem enterObjectLoop_key {name key : String} {q q' : ℕ} (hkey : KeyAt b p name q) :
    enterObjectLoop b p key = .ok q' ↔
      name = key ∧ skipWs b q = q' ∨
        name ≠ key ∧ ∃ p₄, skipValue b (skipWs b q) = .ok p₄ ∧
          b[skipWs b p₄]? = some (ch ',') ∧ enterObjectLoop b (skipWs b p₄ + 1) key = .ok q' := by
  obtain ⟨hquote, np, hparse, hcolon, rfl⟩ := hkey
  rw [enterObjectLoop_eq_ok]
  constructor
  · rintro ⟨k, np', -, hparse', -, hcase⟩
    obtain ⟨rfl, rfl⟩ := Prod.mk.inj (Except.ok.inj (hparse.symm.trans hparse'))
    exact hcase
  · exact fun hcase => ⟨name, np, hquote, hparse, hcolon, hcase⟩

/-- **A key lands on the first member that has it.** -/
theorem enterObjectLoop_lands (name : String) : ∀ (members : Members) {N : Number → Prop} {p : ℕ},
    members.Every NoPair N → b.drop p = bytes members.text ++ ch '\x7d' :: r →
      Lands b (enterObjectLoop b p name) (members.find? name)
  -- the last member: either its key is the one, or there is none
  | .last before key mid gap d after, N, p, hevery, h => by
    rw [Members.text, bytes_item, bytes_keyText] at h
    simp only [List.append_assoc, List.cons_append] at h
    obtain ⟨q, hkey, hrest⟩ := keyAt hevery.1 h
    have hitem : ItemAt b q d (ch '\x7d') r := itemAt (by decide) (by decide) hrest
    rw [Members.find?]
    by_cases hname : String.ofList (decode key) = name
    · rw [if_pos hname]
      obtain ⟨u, hu, hends⟩ := hitem.start
      exact lands_found ((enterObjectLoop_key hkey).mpr (.inl ⟨hname, rfl⟩)) hu hends
    · rw [if_neg hname]
      refine lands_missed fun q' hq' => ?_
      rcases (enterObjectLoop_key hkey).mp hq' with ⟨heq, -⟩ | ⟨-, p₄, hskip, hcomma, -⟩
      · exact hname heq
      · obtain ⟨q₂, hskip', hclose, -⟩ := hitem.skip
        rw [Except.ok.inj (hskip.symm.trans hskip'), hclose] at hcomma
        exact absurd (Option.some.inj hcomma) (by decide)
  -- another member: its value is stepped over
  | .cons before key mid gap d after rest, N, p, hevery, h => by
    rw [Members.text, bytes_comma, bytes_item, bytes_keyText] at h
    simp only [List.append_assoc, List.cons_append] at h
    obtain ⟨q, hkey, hrest⟩ := keyAt hevery.1 h
    have hitem : ItemAt b q d (ch ',') (bytes rest.text ++ ch '\x7d' :: r) :=
      itemAt (by decide) (by decide) hrest
    rw [Members.find?]
    by_cases hname : String.ofList (decode key) = name
    · rw [if_pos hname]
      obtain ⟨u, hu, hends⟩ := hitem.start
      exact lands_found ((enterObjectLoop_key hkey).mpr (.inl ⟨hname, rfl⟩)) hu hends
    · rw [if_neg hname]
      obtain ⟨q₂, hskip, hcomma, hnextText⟩ := hitem.skip
      have hnext := enterObjectLoop_lands name rest hevery.2.2 hnextText
      have hstep : ∀ q', enterObjectLoop b p name = .ok q' ↔
          enterObjectLoop b (skipWs b q₂ + 1) name = .ok q' := by
        intro q'
        rw [enterObjectLoop_key hkey]
        constructor
        · rintro (⟨heq, -⟩ | ⟨-, p₄, hskip', -, hnext'⟩)
          · exact absurd heq hname
          · rwa [Except.ok.inj (hskip.symm.trans hskip')]
        · exact fun hnext' => .inr ⟨hname, q₂, hskip, hcomma, hnext'⟩
      refine ⟨fun d' hd' => ?_, fun hnone q' hq' => hnext.none hnone q' ((hstep q').mp hq')⟩
      obtain ⟨q', t, hq', hdoc⟩ := hnext.some d' hd'
      exact ⟨q', t, (hstep q').mpr hq', hdoc⟩

/-! ### Along a path -/

/-- An error is a walk that fails. -/
theorem lands_err (m : String) : Lands b (err m) none := by
  refine lands_missed fun q hq => ?_
  cases hq

/-- An empty container has nothing to land on. -/
theorem skipWs_empty {w : Blank} {y : UInt8} (hws : isWs y = false)
    (h : b.drop p = bytes w.1 ++ y :: r) : b[skipWs b p]? = some y := by
  have hskip : skipWs b p = p + (bytes w.1).length := by
    apply skipWs_blank (fun x hx => (bytes_blank w hx).1) _ h
    intro x t hx
    rw [← (List.cons.inj hx).1]
    exact hws
  rw [hskip]
  exact Cursor.getElem?_eq (Cursor.drop_add h)

/-- **A component lands on the child of the value.** -/
theorem enter_lands {N : Number → Prop} (comp : String) (d : Doc) (hd : d.Every NoPair N)
    (h : b.drop p = bytes d.text ++ r) : Lands b (enter b p comp) (d.child parseUsize comp) := by
  -- only brackets can be entered
  have hscalar : ∀ x t, bytes d.text = x :: t → x ≠ ch '\x7b' → x ≠ ch '[' →
      Lands b (enter b p comp) none := by
    intro x t hx hbrace hbracket
    rw [hx] at h
    rw [enter, Cursor.getElem?_eq h]
    dsimp only
    rw [if_neg hbrace, if_neg hbracket]
    exact lands_err _
  have htoken : IsTokenDoc d → Lands b (enter b p comp) none := by
    intro ht
    obtain ⟨x, t, hx, -⟩ := doc_start d
    have hplain := (bytes_token (tokenDoc_facts ht).2 (hx ▸ List.mem_cons_self)).2
    exact hscalar x t hx hplain.2.1 hplain.2.2.1
  cases d with
  | null => exact htoken trivial
  | bool v => exact htoken trivial
  | number n => exact htoken trivial
  | string s => exact hscalar _ _ (quoted_eq s) (by decide) (by decide)
  | emptyArray w =>
    rw [Doc.text, bytes_brackets (.inl ⟨rfl, rfl⟩)] at h
    have hopen := Cursor.getElem?_eq (h.trans List.cons_append)
    rw [enter, hopen]
    dsimp only
    rw [if_neg (by decide), if_pos rfl, enterArray]
    cases parseUsize comp with
    | none => exact lands_err _
    | some target =>
      refine lands_missed fun q hq => ?_
      obtain ⟨c, hc, hne, -⟩ := enterArrayLoop_eq_ok.mp hq
      rw [skipWs_empty (by decide) (drop_inBrackets h).1] at hc
      exact hne (Option.some.inj hc).symm
  -- an index is looked for from zero
  | array items =>
    rw [Doc.text, bytes_brackets (.inl ⟨rfl, rfl⟩)] at h
    have hopen := Cursor.getElem?_eq (h.trans List.cons_append)
    rw [enter, hopen]
    dsimp only
    rw [if_neg (by decide), if_pos rfl, enterArray, Doc.child]
    cases parseUsize comp with
    | none => exact lands_err _
    | some target =>
      have hlands := enterArrayLoop_lands items 0 target (drop_inBrackets h).1
      rw [Nat.zero_add] at hlands
      exact hlands
  | emptyObject w =>
    rw [Doc.text, bytes_brackets (.inr ⟨rfl, rfl⟩)] at h
    have hopen := Cursor.getElem?_eq (h.trans List.cons_append)
    rw [enter, hopen]
    dsimp only
    rw [if_pos rfl, enterObject]
    refine lands_missed fun q hq => ?_
    obtain ⟨k, np, hquote, -⟩ := enterObjectLoop_eq_ok.mp hq
    rw [skipWs_empty (by decide) (drop_inBrackets h).1] at hquote
    exact absurd (Option.some.inj hquote) (by decide)
  -- a key is compared with the text it stands for
  | object members =>
    rw [Doc.text, bytes_brackets (.inr ⟨rfl, rfl⟩)] at h
    have hopen := Cursor.getElem?_eq (h.trans List.cons_append)
    rw [enter, hopen]
    dsimp only
    rw [if_pos rfl, enterObject]
    exact enterObjectLoop_lands comp members hd (drop_inBrackets h).1

/-- **A path lands on the value that it leads to.** -/
theorem followPath_lands {N : Number → Prop} (comps : List String) (d : Doc)
    (hd : d.Every NoPair N) (h : b.drop p = bytes d.text ++ r) (hr : Ends r) :
    Lands b (followPath b p comps) (d.follow parseUsize comps) := by
  induction comps generalizing d p r with
  | nil =>
    exact lands_found rfl h hr
  | cons comp comps ih =>
    have henter := enter_lands comp d hd h
    have hfollow : d.follow parseUsize (comp :: comps) =
        (d.child parseUsize comp).bind fun d' => d'.follow parseUsize comps := rfl
    rw [hfollow, followPath]
    cases hchild : d.child parseUsize comp with
    | none =>
      refine lands_missed fun q hq => ?_
      split at hq
      · cases hq
      · next q' hq' => exact henter.none hchild q' hq'
    | some d' =>
      obtain ⟨q, t, hq, hdoc, hends⟩ := henter.some d' hchild
      rw [hq]
      dsimp only
      rw [skipWs_doc d' hdoc]
      exact ih d' (Doc.every_of_child hd hchild) hdoc hends

end

/-! ## Numbers -/

/-- The value of an integer literal. -/
def intValue (n : Number) : ℤ :=
  if n.neg then -(digitsVal n.whole.1 : ℤ) else digitsVal n.whole.1

/-- The exponent of a number. -/
def expoValue (n : Number) : ℤ := n.expo.elim 0 fun e =>
  if e.sign = some true then -(digitsVal e.digits.1 : ℤ) else digitsVal e.digits.1

/-- The digits behind the point. -/
def fracDigits (n : Number) : List Char := n.frac.elim [] fun d => d.1

/-- The nearest binary64 number. -/
def floatValue (n : Number) : Binary64 :=
  Binary64.ofDecimal n.neg (digitsVal (n.whole.1 ++ fracDigits n))
    (n.whole.1 ++ fracDigits n).length (expoValue n - (fracDigits n).length)

/-- A number as a value: an integer literal is an integer. -/
def numberValue (n : Number) : Value :=
  if n.isInteger then .int (Int64.ofInt (intValue n)) else .float (floatValue n)

/-- An integer literal is within 64 bits. -/
def FitsI64 (n : Number) : Prop :=
  n.isInteger = true → -2 ^ 63 ≤ intValue n ∧ intValue n < 2 ^ 63

/-- The two notions of a digit agree. -/
theorem isDigit_eq (c : Char) : Text.isDigit c = c.isDigit := by
  rw [Text.isDigit, Char.isDigit, Bool.eq_iff_iff, Bool.and_eq_true, Bool.and_eq_true]
  simp only [decide_eq_true_eq]
  exact Iff.rfl

/-- So they do for texts. -/
theorem all_isDigit {l : List Char} (h : l.all Char.isDigit = true) :
    l.all Text.isDigit = true := by
  rw [List.all_eq_true] at h ⊢
  intro c hc
  rw [isDigit_eq]
  exact h c hc

/-- Digits are read as their number. -/
theorem parseDigits_eq {l : List Char} (h : l ≠ [] ∧ l.all Char.isDigit = true) :
    parseDigits l = some (digitsVal l) := by
  rw [parseDigits, if_pos]
  rw [Bool.and_eq_true, decide_eq_true_iff]
  exact ⟨h.1, all_isDigit h.2⟩

/-- Digits start with no sign. -/
theorem digits_head {l : List Char} (h : l ≠ [] ∧ l.all Char.isDigit = true) :
    ∃ c t, l = c :: t ∧ c.isDigit = true := by
  obtain ⟨c, t, rfl⟩ := List.exists_cons_of_ne_nil h.1
  exact ⟨c, t, rfl, List.all_eq_true.mp h.2 c List.mem_cons_self⟩

/-! ### Integers -/

/-- **An integer that fits is read as itself.** -/
theorem parseI64_number {n : Number} (hint : n.isInteger = true) (hfits : FitsI64 n) :
    parseI64 (String.ofList n.text) = some (Int64.ofInt (intValue n)) := by
  have hparts : n.frac = none ∧ n.expo = none := by
    rw [Number.isInteger, Bool.and_eq_true, Option.isNone_iff_eq_none,
      Option.isNone_iff_eq_none] at hint
    exact hint
  have htext : n.text = n.signText ++ n.whole.1 := by
    rw [Number.text, Number.fracText, Number.expoText, hparts.1, hparts.2]
    simp
  obtain ⟨hlow, hhigh⟩ := hfits hint
  have hdigits := parseDigits_eq (whole_all n.whole)
  obtain ⟨c, t, hct, hc⟩ := digits_head (whole_all n.whole)
  unfold parseI64
  rw [String.toList_ofList, htext, Number.signText]
  unfold intValue at hlow hhigh ⊢
  cases hneg : n.neg with
  | true =>
    rw [hneg] at hlow hhigh
    simp only [if_true] at hlow hhigh ⊢
    show ((parseDigits n.whole.1).bind fun k =>
      if k ≤ 2 ^ 63 then some (Int64.ofInt (-k)) else none) = _
    rw [hdigits, Option.bind_some, if_pos (by omega)]
  | false =>
    rw [hneg] at hlow hhigh
    simp only [Bool.false_eq_true, if_false] at hlow hhigh ⊢
    rw [List.nil_append]
    split
    · next ds hds =>
      rw [hct] at hds
      obtain ⟨rfl, -⟩ := List.cons.inj hds
      exact absurd hc (by decide)
    · next ds hds =>
      rw [hct] at hds
      obtain ⟨rfl, -⟩ := List.cons.inj hds
      exact absurd hc (by decide)
    · rw [hdigits, Option.bind_some, if_pos (by omega)]

/-- Digits are read up to what follows them. -/
theorem span_digits {l r : List Char} (hl : l.all Char.isDigit = true)
    (hr : ∀ c t, r = c :: t → c.isDigit = false) :
    (l ++ r).takeWhile Text.isDigit = l ∧ (l ++ r).dropWhile Text.isDigit = r := by
  have hall : ∀ c ∈ l, Text.isDigit c = true := List.all_eq_true.mp (all_isDigit hl)
  rw [List.takeWhile_append_of_pos hall, List.dropWhile_append_of_pos hall]
  cases r with
  | nil => exact ⟨List.append_nil l, rfl⟩
  | cons c t =>
    have hc : Text.isDigit c = false := by rw [isDigit_eq, hr c t rfl]
    rw [List.takeWhile_cons, List.dropWhile_cons, hc]
    exact ⟨List.append_nil l, rfl⟩

/-! ### Exponents -/

/-- The exponent is read with its sign. -/
theorem parseExp_number (n : Number) : Binary64.parseExp n.expoText = some (expoValue n) := by
  rw [Number.expoText, expoValue]
  cases he : n.expo with
  | none => rfl
  | some e =>
    have hall := digits_all e.digits
    have hok : ((e.digits.1 ≠ [] && e.digits.1.all Text.isDigit) : Bool) = true := by
      rw [Bool.and_eq_true, decide_eq_true_iff]
      exact ⟨hall.1, all_isDigit hall.2⟩
    obtain ⟨c, t, hct, hc⟩ := digits_head hall
    have hmark : ((if e.upper then 'E' else 'e') = 'e' || (if e.upper then 'E' else 'e') = 'E' :
        Bool) = true := by
      cases e.upper <;> decide
    show Binary64.parseExp ((if e.upper then 'E' else 'e') ::
      (e.sign.elim [] (fun s => [if s then '-' else '+']) ++ e.digits.1)) = some
        (if e.sign = some true then -(digitsVal e.digits.1 : ℤ) else digitsVal e.digits.1)
    cases e.sign with
    | some s =>
      cases s with
      | true =>
        show Binary64.parseExp ((if e.upper then 'E' else 'e') :: '-' :: e.digits.1) = _
        rw [Binary64.parseExp, if_pos hmark, if_pos hok, if_pos rfl, if_pos rfl]
      | false =>
        show Binary64.parseExp ((if e.upper then 'E' else 'e') :: '+' :: e.digits.1) = _
        rw [Binary64.parseExp, if_pos hmark, if_pos hok, if_neg (by decide), if_neg (by decide)]
    | none =>
      -- the first digit is no sign
      have hsign : ∀ s, s.isDigit = false → ∀ r, e.digits.1 = s :: r → False := by
        intro s hs r hr
        rw [hct] at hr
        obtain ⟨rfl, -⟩ := List.cons.inj hr
        rw [hc] at hs
        cases hs
      rw [Option.elim_none, List.nil_append, Binary64.parseExp, if_pos hmark, if_pos hok,
        if_neg (by decide), if_neg (by decide)]
      · exact hsign '-' (by decide)
      · exact hsign '+' (by decide)

/-- The text behind the sign starts with a digit. -/
def unsignedText (n : Number) : List Char := n.whole.1 ++ (n.fracText ++ n.expoText)

/-- No digit stands at the start of the exponent. -/
theorem expoText_not_digit (n : Number) : ∀ c t, n.expoText = c :: t → c.isDigit = false := by
  intro c t h
  rcases expoText_head n with hnil | ⟨c', t', hcons, hmark⟩
  · rw [hnil] at h; cases h
  · rw [hcons] at h
    obtain ⟨rfl, -⟩ := List.cons.inj h
    rcases hmark with rfl | rfl <;> decide

/-! ### Decimals -/

/-- The digits of both parts are read as one number, and the exponent is moved by the length of
the fraction. -/
theorem parseNumber_unsigned (n : Number) (neg : Bool) :
    Binary64.parseNumber neg (unsignedText n) = some (Binary64.ofDecimal neg
      (digitsVal (n.whole.1 ++ fracDigits n)) (n.whole.1 ++ fracDigits n).length
      (expoValue n - (fracDigits n).length)) := by
  have hwhole := whole_all n.whole
  have hexpo := expoText_not_digit n
  -- the whole part ends at the point, at the exponent or with the text
  have hspan : (unsignedText n).takeWhile Text.isDigit = n.whole.1 ∧
      (unsignedText n).dropWhile Text.isDigit = n.fracText ++ n.expoText := by
    apply span_digits hwhole.2
    intro c t h
    cases hf : n.frac with
    | none =>
      rw [Number.fracText, hf] at h
      exact hexpo c t h
    | some d =>
      rw [Number.fracText, hf] at h
      obtain ⟨rfl, -⟩ := List.cons.inj h
      decide
  have hne : ∀ q : Bool, ¬ (decide (n.whole.1 = []) && q) = true := by
    intro q
    simp [hwhole.1]
  have hparse := parseExp_number n
  unfold Binary64.parseNumber
  simp only [hspan.1, hspan.2]
  rw [if_neg (hne _), Number.fracText, fracDigits]
  cases n.frac with
  | none =>
    rw [Option.elim_none, Option.elim_none, List.nil_append]
    rcases expoText_head n with ht | ⟨c, t, ht, rfl | rfl⟩
    · -- without a fraction: no exponent, or either letter
      rw [ht] at hparse ⊢
      show Option.map _ (Binary64.parseExp []) = _
      rw [hparse]
      rfl
    · rw [ht] at hparse ⊢
      show Option.map _ (Binary64.parseExp ('e' :: t)) = _
      rw [hparse]
      rfl
    · rw [ht] at hparse ⊢
      show Option.map _ (Binary64.parseExp ('E' :: t)) = _
      rw [hparse]
      rfl
  | some d =>
    have hfrac := span_digits (digits_all d).2 hexpo
    simp only [Option.elim_some, List.cons_append, hfrac.1, hfrac.2]
    rw [hparse]
    rfl

/-- Text that starts with a digit is read as a decimal. -/
theorem parseUnsigned_number (n : Number) (neg : Bool) :
    Binary64.parseUnsigned neg (unsignedText n) = Binary64.parseNumber neg (unsignedText n) := by
  obtain ⟨c, t, hct, hc⟩ := digits_head (whole_all n.whole)
  have hhead : unsignedText n = c :: (t ++ (n.fracText ++ n.expoText)) := by
    rw [unsignedText, hct, List.cons_append]
  have hlower : c.toLower = c := by
    rw [Char.isDigit, Bool.and_eq_true, decide_eq_true_iff, decide_eq_true_iff] at hc
    refine dif_neg fun hupper => ?_
    have h1 : c.toNat ≤ 57 := hc.2
    have h2 : 65 ≤ c.toNat := hupper.1
    omega
  have hword : ∀ w u, w.isDigit = false → (unsignedText n).map Char.toLower ≠ w :: u := by
    intro w u hw heq
    rw [hhead, List.map_cons, hlower] at heq
    rw [← (List.cons.inj heq).1, hc] at hw
    cases hw
  have hinf : (unsignedText n).map Char.toLower ≠ "inf".toList :=
    hword 'i' ['n', 'f'] (by decide)
  have hinfinity : (unsignedText n).map Char.toLower ≠ "infinity".toList :=
    hword 'i' ['n', 'f', 'i', 'n', 'i', 't', 'y'] (by decide)
  have hnan : (unsignedText n).map Char.toLower ≠ "nan".toList :=
    hword 'n' ['a', 'n'] (by decide)
  simp only [Binary64.parseUnsigned, hinf, hinfinity, hnan, decide_false, Bool.or_self,
    Bool.false_eq_true, if_false]

/-- **A number is read as the nearest double** of what it stands for. -/
theorem parse_number (n : Number) :
    Binary64.parse (String.ofList n.text) = some (floatValue n) := by
  have htext : n.text = n.signText ++ unsignedText n := by
    rw [Number.text, unsignedText, List.append_assoc, List.append_assoc]
  obtain ⟨c, t, hct, hc⟩ := digits_head (whole_all n.whole)
  rw [htext, Number.signText, floatValue, ← parseNumber_unsigned, ← parseUnsigned_number]
  cases n.neg with
  | true =>
    show Binary64.parse (String.ofList ('-' :: unsignedText n)) = _
    unfold Binary64.parse
    rw [String.toList_ofList]
    rfl
  | false =>
    show Binary64.parse (String.ofList (unsignedText n)) = _
    have hhead : unsignedText n = c :: (t ++ (n.fracText ++ n.expoText)) := by
      rw [unsignedText, hct, List.cons_append]
    unfold Binary64.parse
    rw [String.toList_ofList]
    split
    · next cs h =>
      rw [hhead] at h
      rw [(List.cons.inj h).1] at hc
      exact absurd hc (by decide)
    · next cs h =>
      rw [hhead] at h
      rw [(List.cons.inj h).1] at hc
      exact absurd hc (by decide)
    · rfl

/-- A point or an exponent mark is in the text exactly if it is no integer literal. -/
theorem any_mark (n : Number) :
    (bytes n.text).any (fun c => c = ch '.' || c = ch 'e' || c = ch 'E') = !n.isInteger := by
  have hmem : ∀ c, c ∈ n.text → ch c ∈ bytes n.text := by
    intro c hc
    rw [bytes_ascii fun c hc => (token_facts (isToken_number n c hc)).1]
    exact List.mem_map_of_mem hc
  -- one mark is enough
  have hmark : ∀ c, c ∈ n.text → c = '.' ∨ c = 'e' ∨ c = 'E' →
      (bytes n.text).any (fun c => c = ch '.' || c = ch 'e' || c = ch 'E') = true := by
    intro c hc hor
    rw [List.any_eq_true]
    refine ⟨ch c, hmem c hc, ?_⟩
    rcases hor with rfl | rfl | rfl <;> decide
  rw [Number.isInteger]
  cases hf : n.frac with
  | some d =>
    apply hmark '.' _ (.inl rfl)
    simp [Number.text, Number.fracText, hf]
  | none =>
    cases he : n.expo with
    | some e =>
      rcases expoText_head n with hnil | ⟨c, t, hct, hc⟩
      · rw [Number.expoText, he] at hnil
        cases hnil
      · apply hmark c _ (.inr hc)
        simp [Number.text, hct]
    | none =>
      -- without a fraction or an exponent there is only a sign and digits
      show _ = false
      rw [Bool.eq_false_iff]
      intro hany
      obtain ⟨x, hx, hor⟩ := List.any_eq_true.mp hany
      obtain ⟨c, hc, rfl⟩ := mem_bytes (fun c hc => (token_facts (isToken_number n c hc)).1) hx
      have hdigit : c = '-' ∨ c.isDigit = true := by
        simp only [Number.text, Number.fracText, Number.expoText, hf, he, Option.elim_none,
          List.append_nil, List.mem_append] at hc
        rcases hc with hc | hc
        · unfold Number.signText at hc
          split at hc
          · exact .inl (List.mem_singleton.mp hc)
          · cases hc
        · exact .inr (List.all_eq_true.mp (whole_all n.whole).2 c hc)
      have hlt := (token_facts (isToken_number n c hc)).1
      have hne : ∀ d : Char, d.toNat < 0x80 → d.isDigit = false → d ≠ '-' → ch c ≠ ch d := by
        intro d hd hnot hminus
        apply ne_ch hlt hd
        rintro rfl
        rcases hdigit with h | h
        · exact hminus h
        · rw [hnot] at h; cases h
      simp [hne '.' (by decide) (by decide) (by decide), hne 'e' (by decide) (by decide) (by decide),
        hne 'E' (by decide) (by decide) (by decide)] at hor

/-- **A number is read as its value.** -/
theorem parseNumber_eq {n : Number} (h : FitsI64 n) :
    parseNumber (bytes n.text) = .ok (numberValue n) := by
  have hutf8 : fromUtf8 (bytes n.text) = .ok (String.ofList n.text) := by
    rw [← utf8_ofList, fromUtf8_utf8]
  rw [parseNumber, hutf8]
  dsimp only
  rw [any_mark, numberValue]
  cases hint : n.isInteger with
  | true =>
    rw [if_neg (by decide), if_pos rfl, parseI64_number hint h]
  | false =>
    rw [if_pos (show (!false) = true from rfl), if_neg (by decide), parse_number]

/-! ## The scalar of a document -/

/-- The value of a scalar. -/
def scalarOf : Tree → Option Value
  | .bool b => some (.bool b)
  | .number n => some (numberValue n)
  | .string s => some (.str s)
  | _ => none

section
variable {b r : List UInt8} {p : ℕ}

/-- A scalar is read as its value, and a container or a null is an error. -/
theorem parseScalar_eq {d : Doc} (hd : d.Every NoPair FitsI64)
    (h : b.drop p = bytes d.text ++ r) (hr : Ends r) :
    ((parseScalar b p).map Prod.fst).toOption = scalarOf d.tree := by
  -- brackets begin no scalar
  have hcontainer : ∀ {l r' : Char} (_ : Brackets l r') {cs : List Char}, d.text = l :: cs ++ [r'] →
      ((parseScalar b p).map Prod.fst).toOption = none := by
    intro l r' hlr cs htext
    rw [htext, bytes_brackets hlr] at h
    rw [parseScalar, Cursor.getElem?_eq (h.trans List.cons_append)]
    rcases hlr with ⟨rfl, rfl⟩ | ⟨rfl, rfl⟩ <;> rfl
  cases d with
  | null =>
    rw [parseScalar, Cursor.getElem?_eq h]
    rfl
  | bool v =>
    cases v with
    | false =>
      rw [parseScalar, Cursor.getElem?_eq h]
      rfl
    | true =>
      rw [parseScalar, Cursor.getElem?_eq h]
      rfl
  -- the token is the whole text of the number, up to what ends it
  | number n =>
    have hall : ∀ x ∈ bytes n.text, isDelim x = false ∧ IsPlain x := fun x hx =>
      bytes_token (isToken_number n) hx
    have htoken : tokenAt b p = bytes n.text := by
      rw [tokenAt, scanToken_eq (fun x hx => (hall x hx).1) hr h, Nat.add_sub_cancel_left]
      rw [show b.drop p = bytes n.text ++ r from h, List.take_left]
    obtain ⟨c, t, hct⟩ := List.exists_cons_of_ne_nil (number_ne_nil n)
    have hc : c = '-' ∨ c.isDigit = true := by
      rw [Number.text, Number.signText] at hct
      obtain ⟨c', t', hw, hc'⟩ := digits_head (whole_all n.whole)
      cases hneg : n.neg with
      | true =>
        rw [hneg] at hct
        exact .inl (List.cons.inj hct).1.symm
      | false =>
        rw [hneg, hw] at hct
        exact .inr ((List.cons.inj hct).1 ▸ hc')
    have hfacts := token_facts (isToken_number n c (hct ▸ List.mem_cons_self))
    have hbytes : bytes n.text = ch c :: bytes t := by
      rw [hct, bytes_cons hfacts.1]
      rfl
    -- it begins with a sign or a digit, so no other branch takes it
    have hstart : startsNumber (ch c) = true := by
      have hne : ∀ d : Char, d.toNat < 0x80 → d.isDigit = false → d ≠ '-' → ch c ≠ ch d := by
        intro d hd hnot hminus
        apply ne_ch hfacts.1 hd
        rintro rfl
        rcases hc with h | h
        · exact hminus h
        · rw [hnot] at h; cases h
      simp [startsNumber, hne '"' (by decide) (by decide) (by decide),
        hne 't' (by decide) (by decide) (by decide), hne 'f' (by decide) (by decide) (by decide),
        hne 'n' (by decide) (by decide) (by decide),
        hne '\x7b' (by decide) (by decide) (by decide),
        hne '[' (by decide) (by decide) (by decide)]
    have hget : b[p]? = some (ch c) := Cursor.getElem?_eq (h.trans (by rw [Doc.text, hbytes]; rfl))
    rw [parseScalar_of_startsNumber hget hstart, htoken, parseNumber_eq hd]
    rfl
  | string s =>
    have hquoted : b.drop p = quoted s ++ r := h
    have hget : b[p]? = some (ch '"') := by
      rw [quoted_eq, List.cons_append, List.cons_append] at hquoted
      exact Cursor.getElem?_eq hquoted
    have hparse := parseString_eq s hquoted
    rw [← (decode_eq_map_iff s).mpr hd] at hparse
    rw [parseScalar, hget]
    dsimp only
    rw [if_pos rfl, hparse]
    rfl
  | emptyArray w => exact hcontainer (.inl ⟨rfl, rfl⟩) rfl
  | array items => exact hcontainer (.inl ⟨rfl, rfl⟩) rfl
  | emptyObject w => exact hcontainer (.inr ⟨rfl, rfl⟩) rfl
  | object members => exact hcontainer (.inr ⟨rfl, rfl⟩) rfl

end

/-! ## Navigation -/

/-- A document whose text is the string. -/
def IsDocument (d : Doc) (s : String) : Prop :=
  ∃ before after : Blank, s.toList = before.1 ++ d.text ++ after.1

/-- A text of the grammar is a document. -/
theorem exists_document {s : String} (h : IsJson s) : ∃ d, IsDocument d s := by
  obtain ⟨e, ⟨hbefore, hafter⟩, hvalue, hs⟩ := h
  obtain ⟨d, hd⟩ := exists_doc hvalue
  exact ⟨d, ⟨e.before, hbefore⟩, ⟨e.after, hafter⟩, by rw [hs, hd, Padded.chars]⟩

/-- **The walk along a path finds what the tree of the document has there**, as long as no key has
half of a pair and no integer is too large. -/
theorem get_document {s : String} {d : Doc} (hs : IsDocument d s) (hd : d.Every NoPair FitsI64)
    (path : String) :
    (get (utf8 s) path).toOption = (d.tree.follow parseUsize (pathComps path)).bind scalarOf := by
  obtain ⟨before, after, hs⟩ := hs
  have hbytes : utf8 s = bytes before.1 ++ (bytes d.text ++ bytes after.1) := by
    rw [utf8, hs]
    simp only [bytes, List.flatMap_append, List.append_assoc]
  have hdrop₀ : (utf8 s).drop 0 = bytes before.1 ++ (bytes d.text ++ bytes after.1) := hbytes
  have hends : Ends (bytes after.1) := fun x t h =>
    isDelim_of_isWs (bytes_blank after (h ▸ List.mem_cons_self)).1
  have hstart : skipWs (utf8 s) 0 = 0 + (bytes before.1).length := by
    apply skipWs_blank (fun x hx => (bytes_blank before hx).1) _ hdrop₀
    intro x t hx
    obtain ⟨z, u, hz, hdelim⟩ := doc_start d
    rw [hz] at hx
    rw [← (List.cons.inj hx).1]
    exact isWs_of_isDelim_false hdelim
  have hdrop : (utf8 s).drop (skipWs (utf8 s) 0) = bytes d.text ++ bytes after.1 := by
    rw [hstart]
    exact Cursor.drop_add hdrop₀
  have hlands := followPath_lands (pathComps path) d hd hdrop hends
  rw [get, Doc.follow_tree]
  cases hfollow : d.follow parseUsize (pathComps path) with
  | none =>
    split
    · rfl
    · next p hp => exact absurd hp (hlands.none hfollow p)
  | some d' =>
    obtain ⟨q, t, hq, hdoc, hends'⟩ := hlands.some d' hfollow
    have hd' := Doc.every_of_follow hd hfollow
    rw [hq]
    exact parseScalar_eq hd' hdoc hends'

/-- **`json::get` is the lookup in the document.**  Every JSON text has a document, and for
every document of it whose strings have no surrogate pair and whose integer literals fit 64
bits, `get` returns the scalar at the end of the path and fails if there is none; and
`skip_value` moves past exactly one value wherever it stands. -/
theorem get_navigates {s : String} (hs : IsJson s) : (∃ d, IsDocument d s) ∧
    (∀ d, IsDocument d s → d.Every NoPair FitsI64 → ∀ path,
      (get (utf8 s) path).toOption =
        (d.tree.follow parseUsize (pathComps path)).bind scalarOf) ∧
    ∀ (d : Doc) (pre post : List UInt8), Ends post →
      skipValue (pre ++ bytes d.text ++ post) pre.length =
        .ok (pre.length + (bytes d.text).length) := by
  refine ⟨exists_document hs, fun d h hd path => get_document h hd path,
    fun d pre post hpost => skipValue_eq d ?_ hpost⟩
  rw [List.append_assoc, List.drop_left]

/-- The object with one member is a text, and `get` finds the member. -/
theorem get_navigates_member :
    (get (utf8 "\x7b\"a\":7\x7d") "a").toOption = some (.int 7) := by
  have hjson : IsJson "\x7b\"a\":7\x7d" :=
    isJson_of_isValue (isValue_singleton (k := ['a']) (v := ['7']) rfl (.number rfl))
  let seven : Number := ⟨false, ⟨['7'], rfl⟩, none, none⟩
  let key : List Piece := [.raw ⟨'a', by decide⟩]
  let doc : Doc := .object (.last ⟨[], rfl⟩ key ⟨[], rfl⟩ ⟨[], rfl⟩ (.number seven) ⟨[], rfl⟩)
  have hdoc : IsDocument doc "\x7b\"a\":7\x7d" := ⟨⟨[], rfl⟩, ⟨[], rfl⟩, rfl⟩
  have hevery : doc.Every NoPair FitsI64 :=
    ⟨.singleton _, fun _ => by decide⟩
  rw [(get_navigates hjson).2.1 doc hdoc hevery "a"]
  decide +kernel

end Json
