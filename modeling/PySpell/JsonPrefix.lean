/-
# Scanning a prefix of a JSON text

A streaming extraction scans prefixes of a text.  This file proves what a
successful scan of a prefix `b` says about every longer text `b ++ r`: a scanner
that stopped strictly inside `b`, or at a closing byte it has seen, stops at the
same place in `b ++ r`.  The only helper that can mistake the end of `b` for the
end of a value is `scanToken`, which ends a scalar token at the end of the text.

`get_append` is the summary: what `get` finds in `b` it finds in `b ++ r`, unless
the path leads in `b` to a number token that `b` cuts off.
-/
import PySpell.Json

namespace Json

open Text

variable {b : List UInt8} (r : List UInt8)

/-! ## Stopping strictly inside the prefix -/

theorem skipWs_append {p : ℕ} (h : skipWs b p < b.length) : skipWs (b ++ r) p = skipWs b p := by
  fun_induction skipWs b p with
  | case1 p hp hw ih =>
    rw [skipWs, dif_pos (by simp; omega), if_pos (by rwa [List.getElem_append_left hp])]
    exact ih h
  | case2 p hp hw =>
    rw [skipWs, dif_pos (by simp; omega), if_neg (by rwa [List.getElem_append_left hp])]
  | case3 p hp => omega

theorem rawRun_append {p : ℕ} (h : rawRun b p < b.length) : rawRun (b ++ r) p = rawRun b p := by
  fun_induction rawRun b p with
  | case1 p hp hw =>
    rw [rawRun, dif_pos (by simp; omega), if_pos (by rwa [List.getElem_append_left hp])]
  | case2 p hp hw ih =>
    rw [rawRun, dif_pos (by simp; omega), if_neg (by rwa [List.getElem_append_left hp])]
    exact ih h
  | case3 p hp => omega

theorem scanToken_append {p : ℕ} (h : scanToken b p < b.length) :
    scanToken (b ++ r) p = scanToken b p := by
  fun_induction scanToken b p with
  | case1 p hp hw =>
    rw [scanToken, dif_pos (by simp; omega), if_pos (by rwa [List.getElem_append_left hp])]
  | case2 p hp hw ih =>
    rw [scanToken, dif_pos (by simp; omega), if_neg (by rwa [List.getElem_append_left hp])]
    exact ih h
  | case3 p hp => omega

/-- A longer text can only lengthen a token. -/
theorem scanToken_le_append (p : ℕ) : scanToken b p ≤ scanToken (b ++ r) p := by
  fun_induction scanToken b p with
  | case1 p hp hw => exact le_scanToken (b ++ r) p
  | case2 p hp hw ih =>
    rw [scanToken.eq_def (b ++ r) p, dif_pos (by simp; omega),
      if_neg (by rwa [List.getElem_append_left hp])]
    exact ih
  | case3 p hp => exact le_scanToken (b ++ r) p

/-- A byte seen in the prefix is there in the text. -/
theorem getElem?_append_of_some {p : ℕ} {c : UInt8} (h : b[p]? = some c) :
    (b ++ r)[p]? = some c := by
  rw [List.getElem?_append_left (List.getElem?_eq_some_iff.mp h).1, h]

/-- A piece that lies in the prefix is the same piece of the text. -/
theorem take_drop_append {p n : ℕ} (h : p + n ≤ b.length) :
    ((b ++ r).drop p).take n = (b.drop p).take n := by
  rw [List.drop_append_of_le_length (by omega), List.take_append_of_le_length (by simp; omega)]

/-! ## Strings -/

theorem skipStringLoop_append {p q : ℕ} (h : skipStringLoop b p = .ok q) :
    skipStringLoop (b ++ r) p = .ok q := by
  fun_induction skipStringLoop b p with
  | case1 p hp hb ih =>
    rw [skipStringLoop, dif_pos (by simp; omega), if_pos (by rwa [List.getElem_append_left hp])]
    exact ih h
  | case2 p hp hb hq =>
    rw [skipStringLoop, dif_pos (by simp; omega), if_neg (by rwa [List.getElem_append_left hp]),
      if_pos (by rwa [List.getElem_append_left hp])]
    exact h
  | case3 p hp hb hq ih =>
    rw [skipStringLoop, dif_pos (by simp; omega), if_neg (by rwa [List.getElem_append_left hp]),
      if_neg (by rwa [List.getElem_append_left hp])]
    exact ih h
  | case4 p hp => simp [err] at h

theorem hex4_append {p n : ℕ} (h : hex4 b p = .ok n) : hex4 (b ++ r) p = .ok n := by
  unfold hex4 at h ⊢
  split at h
  · simp [err] at h
  · rw [if_neg (by simp; omega), take_drop_append r (by omega)]
    exact h

theorem parseEscape_append {p q : ℕ} {c : Char} (h : parseEscape b p = .ok (c, q)) :
    parseEscape (b ++ r) p = .ok (c, q) := by
  unfold parseEscape at h ⊢
  rcases hb : b[p + 1]? with _ | d
  · simp [hb, err] at h
  · rw [getElem?_append_of_some r hb]
    rw [hb] at h
    rcases hs : shortEscape d with _ | e
    · simp only [hs] at h ⊢
      split at h
      · rename_i hu
        rw [if_pos hu]
        rcases hx : hex4 b (p + 2) with e | n
        · simp [hx, Except.map] at h
        · rw [hex4_append r hx]
          rwa [hx] at h
      · simp [err] at h
    · simpa only [hs] using h

/-- A string whose closing quote was found starts inside the text. -/
theorem lt_length_of_parseStringLoop {p q : ℕ} {out s : String}
    (h : parseStringLoop b p out = .ok (s, q)) : p < b.length := by
  have := parseStringLoop_lt h
  omega

theorem parseStringLoop_append {p q : ℕ} {out s : String}
    (h : parseStringLoop b p out = .ok (s, q)) :
    parseStringLoop (b ++ r) p out = .ok (s, q) := by
  fun_induction parseStringLoop b p out with
  | case1 p out hp hq =>
    rw [parseStringLoop, dif_pos (by simp; omega), if_pos (by rwa [List.getElem_append_left hp])]
    exact h
  | case2 p out hp hq hb e he => simp at h
  | case3 p out hp hq hb c q' hr ih =>
    rw [parseStringLoop, dif_pos (by simp; omega), if_neg (by rwa [List.getElem_append_left hp]),
      if_pos (by rwa [List.getElem_append_left hp])]
    split
    · next e he =>
      rw [parseEscape_append r hr] at he
      cases he
    · next c' q'' he =>
      rw [parseEscape_append r hr] at he
      cases he
      exact ih h
  | case4 p out hp hq hb e he => simp [err] at h
  | case5 p out hp hq hb s' hs ih =>
    -- the run ended at a byte of the prefix, not at its end
    have hrun := lt_length_of_parseStringLoop h
    have hle := le_rawRun b p
    rw [parseStringLoop, dif_pos (by simp; omega), if_neg (by rwa [List.getElem_append_left hp]),
      if_neg (by rwa [List.getElem_append_left hp]), rawRun_append r hrun,
      take_drop_append r (by omega)]
    simp only [hs]
    exact ih h
  | case6 p out hp => simp [err] at h

theorem parseString_append {p q : ℕ} {s : String} (h : parseString b p = .ok (s, q)) :
    parseString (b ++ r) p = .ok (s, q) :=
  parseStringLoop_append r h

/-! ## Skipping values -/

theorem skipContainer_append {p q d : ℕ} (h : skipContainer b p d = .ok q) :
    skipContainer (b ++ r) p d = .ok q := by
  fun_induction skipContainer b p d with
  | case1 p d hp hs e he => simp at h
  | case2 p d hp hs q' hr ih =>
    rw [skipContainer, dif_pos (by simp; omega), if_pos (by rwa [List.getElem_append_left hp])]
    have hr' : skipStringRaw (b ++ r) p = .ok q' := skipStringLoop_append r hr
    split
    · next e he =>
      rw [hr'] at he
      cases he
    · next q'' he =>
      rw [hr'] at he
      cases he
      exact ih h
  | case3 p d hp hs ho ih =>
    rw [skipContainer, dif_pos (by simp; omega), if_neg (by rwa [List.getElem_append_left hp]),
      if_pos (by rwa [List.getElem_append_left hp])]
    exact ih h
  | case4 p hp hs ho hc =>
    rw [skipContainer, dif_pos (by simp; omega), if_neg (by rwa [List.getElem_append_left hp]),
      if_neg (by rwa [List.getElem_append_left hp]),
      if_pos (by rwa [List.getElem_append_left hp]), if_pos rfl]
    exact h
  | case5 p d hp hs ho hc hd ih =>
    rw [skipContainer, dif_pos (by simp; omega), if_neg (by rwa [List.getElem_append_left hp]),
      if_neg (by rwa [List.getElem_append_left hp]),
      if_pos (by rwa [List.getElem_append_left hp]), if_neg hd]
    exact ih h
  | case6 p d hp hs ho hc ih =>
    rw [skipContainer, dif_pos (by simp; omega), if_neg (by rwa [List.getElem_append_left hp]),
      if_neg (by rwa [List.getElem_append_left hp]),
      if_neg (by rwa [List.getElem_append_left hp])]
    exact ih h
  | case7 p d hp => simp [err] at h

/-- A skipped value that ends strictly inside the prefix ends there in the text. -/
theorem skipValue_append {p q : ℕ} (h : skipValue b p = .ok q) (hq : q < b.length) :
    skipValue (b ++ r) p = .ok q := by
  unfold skipValue at h ⊢
  dsimp only at h ⊢
  rcases hb : b[skipWs b p]? with _ | c
  · simp [hb, err] at h
  · have hws := skipWs_append r (List.getElem?_eq_some_iff.mp hb).1
    rw [hws, getElem?_append_of_some r hb]
    simp only [hb] at h ⊢
    split_ifs at h ⊢ with hc hs
    · exact skipContainer_append r h
    · exact skipStringLoop_append r h
    · simp only [Except.ok.injEq] at h
      rw [scanToken_append r (by omega), h]

/-! ## Descending -/

/-- **One round of the object loop**: a key string, a colon, and then either the
member that was asked for or a skipped value, a comma and the next round. -/
theorem enterObjectLoop_eq_ok {b : List UInt8} {p q : ℕ} {key : String} :
    enterObjectLoop b p key = .ok q ↔
      ∃ k np, b[skipWs b p]? = some (ch '"') ∧ parseString b (skipWs b p) = .ok (k, np) ∧
        b[skipWs b np]? = some (ch ':') ∧
        (k = key ∧ skipWs b (skipWs b np + 1) = q ∨
          k ≠ key ∧ ∃ p₄, skipValue b (skipWs b (skipWs b np + 1)) = .ok p₄ ∧
            b[skipWs b p₄]? = some (ch ',') ∧
            enterObjectLoop b (skipWs b p₄ + 1) key = .ok q) := by
  rw [enterObjectLoop]
  dsimp only
  rcases hb : b[skipWs b p]? with _ | c
  · simp [err]
  · simp only [Option.some.injEq]
    by_cases hc : c = ch '}'
    · subst hc
      simp [err, show ¬ ch '}' = ch '"' by decide]
    · rw [if_neg hc]
      by_cases hq : c = ch '"'
      · rw [if_neg (by simpa using hq)]
        split
        · next e he => simp [he]
        · next k np he =>
          simp only [hq, he, true_and, Except.ok.injEq, Prod.mk.injEq, and_assoc]
          by_cases hcol : b[skipWs b np]? = some (ch ':')
          · rw [if_neg (by simpa using hcol)]
            by_cases hk : k = key
            · simp [hk, hcol]
            · rw [if_neg hk]
              split
              · next e hv => simp [hk, hv]
              · next p₄ hv =>
                rcases h5 : b[skipWs b p₄]? with _ | d
                · simp [hk, hv, h5, err]
                · by_cases hd : d = ch ','
                  · simp [hk, hv, h5, hd, hcol]
                  · dsimp only
                    rw [if_neg hd]
                    split <;> simp [hk, hv, h5, hd, err]
          · simp [hcol, err]
      · simp [hq, err]

theorem enterArrayLoop_eq_ok {b : List UInt8} {p q i t : ℕ} :
    enterArrayLoop b p i t = .ok q ↔
      ∃ c, b[skipWs b p]? = some c ∧ c ≠ ch ']' ∧
        (i = t ∧ skipWs b p = q ∨
          i ≠ t ∧ ∃ p₂, skipValue b (skipWs b p) = .ok p₂ ∧ b[skipWs b p₂]? = some (ch ',') ∧
            enterArrayLoop b (skipWs b p₂ + 1) (i + 1) t = .ok q) := by
  rw [enterArrayLoop]
  dsimp only
  rcases hb : b[skipWs b p]? with _ | c
  · simp [err]
  · simp only [Option.some.injEq, exists_eq_left']
    by_cases hc : c = ch ']'
    · simp [hc, err]
    · rw [if_neg hc]
      by_cases hi : i = t
      · simp [hi, hc]
      · rw [if_neg hi]
        split
        · next e hv => simp [hi, hv]
        · next p₂ hv =>
          split
          · next d h3 =>
            by_cases hd : d = ch ','
            · simp [hi, hc, hv, h3, hd]
            · rw [if_neg hd]
              split <;> simp [hi, hv, h3, hd, err]
          · next h3 => simp [hi, hv, h3, err]

/-! ### Where the loops stop -/

theorem le_of_enterObjectLoop {p q : ℕ} {key : String} (h : enterObjectLoop b p key = .ok q) :
    p < q := by
  induction hn : b.length - p using Nat.strong_induction_on generalizing p with
  | _ n ih =>
    obtain ⟨k, np, -, hs, hc, hcase⟩ := enterObjectLoop_eq_ok.mp h
    have h1 := le_skipWs b p
    have h2 := parseString_lt hs
    have h3 := le_skipWs b np
    have h4 := le_skipWs b (skipWs b np + 1)
    rcases hcase with ⟨-, hq⟩ | ⟨-, p₄, hv, -, hrest⟩
    · omega
    · have h5 := le_of_skipValue hv
      have h6 := le_skipWs b p₄
      have := ih _ (by omega) hrest rfl
      omega

theorem le_of_enterArrayLoop {p q i t : ℕ} (h : enterArrayLoop b p i t = .ok q) : p ≤ q := by
  induction hn : b.length - p using Nat.strong_induction_on generalizing p i with
  | _ n ih =>
    obtain ⟨c, hb, -, hcase⟩ := enterArrayLoop_eq_ok.mp h
    have h1 := le_skipWs b p
    have h2 := (List.getElem?_eq_some_iff.mp hb).1
    rcases hcase with ⟨-, hq⟩ | ⟨-, p₂, hv, -, hrest⟩
    · omega
    · have h3 := le_of_skipValue hv
      have h4 := le_skipWs b p₂
      have := ih _ (by omega) hrest rfl
      omega

theorem le_of_enter {p q : ℕ} {comp : String} (h : enter b p comp = .ok q) : p < q := by
  unfold enter at h
  split at h
  · simp [err] at h
  · split_ifs at h with ho ha
    · have := le_of_enterObjectLoop h
      omega
    · unfold enterArray at h
      split at h
      · simp [err] at h
      · have := le_of_enterArrayLoop h
        omega
    · simp [err] at h

/-! ### A longer text -/

/-- A member found strictly inside the prefix is found there in the text. -/
theorem enterObjectLoop_append {p q : ℕ} {key : String} (h : enterObjectLoop b p key = .ok q)
    (hq : q < b.length) : enterObjectLoop (b ++ r) p key = .ok q := by
  induction hn : b.length - p using Nat.strong_induction_on generalizing p with
  | _ n ih =>
    obtain ⟨k, np, hb, hs, hc, hcase⟩ := enterObjectLoop_eq_ok.mp h
    have h1 := le_skipWs b p
    have h2 := parseString_lt hs
    have h3 := le_skipWs b np
    have h4 := le_skipWs b (skipWs b np + 1)
    rw [enterObjectLoop_eq_ok, skipWs_append r (List.getElem?_eq_some_iff.mp hb).1]
    refine ⟨k, np, getElem?_append_of_some r hb, parseString_append r hs, ?_⟩
    rw [skipWs_append r (List.getElem?_eq_some_iff.mp hc).1]
    refine ⟨getElem?_append_of_some r hc, ?_⟩
    rcases hcase with ⟨hk, he⟩ | ⟨hk, p₄, hv, hcomma, hrest⟩
    · exact Or.inl ⟨hk, by rw [skipWs_append r (by omega), he]⟩
    · -- the skipped value ended before the comma, so inside the prefix
      have h5 := le_of_skipValue hv
      have h6 := le_skipWs b p₄
      have h7 := (List.getElem?_eq_some_iff.mp hcomma).1
      refine Or.inr ⟨hk, p₄, ?_, ?_⟩
      · rw [skipWs_append r (by omega)]
        exact skipValue_append r hv (by omega)
      · rw [skipWs_append r h7]
        exact ⟨getElem?_append_of_some r hcomma, ih _ (by omega) hrest rfl⟩

theorem enterArrayLoop_append {p q i t : ℕ} (h : enterArrayLoop b p i t = .ok q) :
    enterArrayLoop (b ++ r) p i t = .ok q := by
  induction hn : b.length - p using Nat.strong_induction_on generalizing p i with
  | _ n ih =>
    obtain ⟨c, hb, hc, hcase⟩ := enterArrayLoop_eq_ok.mp h
    have h1 := le_skipWs b p
    have h2 := (List.getElem?_eq_some_iff.mp hb).1
    rw [enterArrayLoop_eq_ok, skipWs_append r h2]
    refine ⟨c, getElem?_append_of_some r hb, hc, ?_⟩
    rcases hcase with ⟨hi, he⟩ | ⟨hi, p₂, hv, hcomma, hrest⟩
    · exact Or.inl ⟨hi, he⟩
    · have h3 := le_of_skipValue hv
      have h4 := le_skipWs b p₂
      have h5 := (List.getElem?_eq_some_iff.mp hcomma).1
      refine Or.inr ⟨hi, p₂, skipValue_append r hv (by omega), ?_⟩
      rw [skipWs_append r h5]
      exact ⟨getElem?_append_of_some r hcomma, ih _ (by omega) hrest rfl⟩

theorem enter_append {p q : ℕ} {comp : String} (h : enter b p comp = .ok q)
    (hq : q < b.length) : enter (b ++ r) p comp = .ok q := by
  unfold enter at h ⊢
  rcases hb : b[p]? with _ | c
  · simp [hb, err] at h
  · rw [getElem?_append_of_some r hb]
    simp only [hb] at h ⊢
    split_ifs at h ⊢ with ho ha
    · exact enterObjectLoop_append r h hq
    · unfold enterArray at h ⊢
      split at h
      · simp [err] at h
      · exact enterArrayLoop_append r h
    · simp [err] at h

/-! ## Following a path -/

theorem le_of_followPath {comps : List String} :
    ∀ {p q : ℕ}, followPath b p comps = .ok q → p ≤ q := by
  induction comps with
  | nil =>
    intro p q h
    simp only [followPath, Except.ok.injEq] at h
    omega
  | cons comp comps ih =>
    intro p q h
    rw [followPath] at h
    split at h
    · simp at h
    · next q' he =>
      have h1 := le_of_enter he
      have h2 := le_skipWs b q'
      have h3 := ih h
      omega

/-- **A path that leads to a byte of the prefix leads there in the text.** -/
theorem followPath_append {comps : List String} :
    ∀ {p q : ℕ}, followPath b p comps = .ok q → q < b.length →
      followPath (b ++ r) p comps = .ok q := by
  induction comps with
  | nil => exact fun h _ => h
  | cons comp comps ih =>
    intro p q h hq
    rw [followPath] at h
    split at h
    · simp at h
    · next q' he =>
      have h1 := le_skipWs b q'
      have h2 := le_of_followPath h
      rw [followPath, enter_append r he (by omega)]
      dsimp only
      rw [skipWs_append r (by omega)]
      exact ih h hq

/-! ## Scalars -/

/-- The bytes that `parse_scalar` reads as the start of a number. -/
def startsNumber (c : UInt8) : Bool :=
  c ≠ ch '"' && c ≠ ch 't' && c ≠ ch 'f' && c ≠ ch 'n' && c ≠ ch '{' && c ≠ ch '['

/-- The value of the scalar at `p`, for a byte that starts a number. -/
theorem parseScalar_of_startsNumber {b : List UInt8} {p : ℕ} {c : UInt8} (hb : b[p]? = some c)
    (hc : startsNumber c = true) :
    (parseScalar b p).map Prod.fst = parseNumber (tokenAt b p) := by
  simp only [startsNumber, Bool.and_eq_true, decide_eq_true_eq] at hc
  obtain ⟨⟨⟨⟨⟨h1, h2⟩, h3⟩, h4⟩, h5⟩, h6⟩ := hc
  rw [parseScalar, hb]
  simp only [h1, h2, h3, h4, h5, h6, if_false, or_self]
  cases parseNumber (tokenAt b p) <;> rfl

/-- A scalar other than a number is read to a byte of its own. -/
theorem parseScalar_append {p : ℕ} {c : UInt8} {v : Value} (hb : b[p]? = some c)
    (hc : startsNumber c = false) (h : (parseScalar b p).map Prod.fst = .ok v) :
    (parseScalar (b ++ r) p).map Prod.fst = .ok v := by
  rw [parseScalar, hb] at h
  rw [parseScalar, getElem?_append_of_some r hb]
  dsimp only at h ⊢
  split_ifs at h ⊢ with h1 h2 h3 h4 h5
  · rcases hs : parseString b p with e | ⟨s, np⟩
    · simp [hs, Except.map] at h
    · rw [parseString_append r hs]
      rwa [hs] at h
  · exact h
  · exact h
  · exact h
  · exact h
  · simp_all [startsNumber]

/-- A number token that ends strictly inside the prefix is the token of the text. -/
theorem tokenAt_append {p : ℕ} (h : scanToken b p < b.length) :
    tokenAt (b ++ r) p = tokenAt b p := by
  have hle := le_scanToken b p
  rw [tokenAt, tokenAt, scanToken_append r h, take_drop_append r (by omega)]

end Json
