/-
# The accesses of the JSON scanner

The scanner of `json.rs` once more, with what it may do wrong: `b[p]` and `&b[a..b]` panic out
of bounds, and a loop may never end.  Every loop of the source is a body that is run for a
bounded number of rounds; a function has no value when an access panics or the rounds run out.

Positions move by one byte, by two, or by six over a `\u` escape, and `skip_string_raw` jumps
over the end of a text behind a last backslash.  Every loop looks at its position before it
reads, so each advances and stops (`advances_string`, `advances_container`, …), whatever the
bytes are: `get_returns`.  The nesting depth is an `i32` that wraps; it decides where a
container ends, and no access depends on it.  On a text below 2 GiB, where it does not wrap,
this is the scanner of the other modules (`get_eq`).
-/
import PySpell.Json
import PySpell.Lib.Advance
import PySpell.Lib.CheckedBytes

open Checked Text

namespace Json.Scan

/-! ## The program -/

/-- The loop of `skip_ws`. -/
def wsBody (b : List UInt8) (p : ℕ) : Option (Round ℕ ℕ) :=
  if p < b.length then do
    let c ← b[p]?
    pure (if isWs c then .again (p + 1) else .done p)
  else some (.done p)

/-- `skip_ws`. -/
def skipWs (b : List UInt8) (p : ℕ) : Option ℕ := loop (wsBody b) (b.length + 1) p

/-- The loop of `skip_string_raw`. -/
def stringBody (b : List UInt8) (p : ℕ) : Option (Round ℕ (Except DslError ℕ)) :=
  if p < b.length then do
    let c ← b[p]?
    pure (if c = ch '\\' then .again (p + 2)
      else if c = ch '"' then .done (.ok (p + 1))
      else .again (p + 1))
  else some (.done (err "json: unterminated string"))

/-- `skip_string_raw`. -/
def skipStringRaw (b : List UInt8) (p : ℕ) : Option (Except DslError ℕ) :=
  loop (stringBody b) (b.length + 1) (p + 1)

/-- The container loop of `skip_value`, on the position and the depth. -/
def containerBody (b : List UInt8) (s : ℕ × Int32) :
    Option (Round (ℕ × Int32) (Except DslError ℕ)) :=
  let (q, depth) := s
  if q < b.length then do
    let c ← b[q]?
    if c = ch '"' then
      match ← skipStringRaw b q with
      | .error e => pure (.done (.error e))
      | .ok r => pure (.again (r, depth))
    else if c = ch '\x7b' ∨ c = ch '[' then pure (.again (q + 1, depth + 1))
    else if c = ch '\x7d' ∨ c = ch ']' then
      if depth - 1 = 0 then pure (.done (.ok (q + 1))) else pure (.again (q + 1, depth - 1))
    else pure (.again (q + 1, depth))
  else some (.done (err "json: unterminated container"))

/-- The token loop of `skip_value`. -/
def tokenBody (b : List UInt8) (q : ℕ) : Option (Round ℕ ℕ) :=
  if q < b.length then do
    let c ← b[q]?
    pure (if isDelim c then .done q else .again (q + 1))
  else some (.done q)

/-- `skip_value`. -/
def skipValue (b : List UInt8) (p : ℕ) : Option (Except DslError ℕ) := do
  let p ← skipWs b p
  match b[p]? with
  | none => pure (err "json: unexpected end")
  | some c =>
    if c = ch '\x7b' ∨ c = ch '[' then loop (containerBody b) (b.length + 1) (p, 0)
    else if c = ch '"' then skipStringRaw b p
    else do
      let q ← loop (tokenBody b) (b.length + 1) p
      pure (.ok q)

/-! ### Strings -/

/-- `hex4`. -/
def hex4 (b : List UInt8) (p : ℕ) : Option (Except DslError ℕ) :=
  if b.length < p + 4 then some (err "json: bad \\u escape")
  else do
    let digits ← slice b p (p + 4)
    pure (digits.foldlM (fun v c =>
      match hexDigit c with
      | some d => .ok (v * 16 + d)
      | none => err "json: bad \\u digit") 0)

/-- The loop over a run of raw bytes in `parse_string`. -/
def runBody (b : List UInt8) (p : ℕ) : Option (Round ℕ ℕ) :=
  if p < b.length then do
    let c ← b[p]?
    pure (if c = ch '"' ∨ c = ch '\\' then .done p else .again (p + 1))
  else some (.done p)

/-- The loop of `parse_string`, on the position and the text so far. -/
def parseBody (b : List UInt8) (s : ℕ × String) :
    Option (Round (ℕ × String) (Except DslError (String × ℕ))) :=
  let (p, out) := s
  if p < b.length then do
    let c ← b[p]?
    if c = ch '"' then pure (.done (.ok (out, p + 1)))
    else if c = ch '\\' then
      match b[p + 1]? with
      | none => pure (.done (err "json: bad escape"))
      | some d =>
        match shortEscape d with
        | some x => pure (.again (p + 2, out.push x))
        | none =>
          if d = ch 'u' then
            match ← hex4 b (p + 2) with
            | .error e => pure (.done (.error e))
            | .ok cp => pure (.again (p + 6, out.push (charOfCode cp)))
          else pure (.done (err "json: bad escape"))
    else do
      let q ← loop (runBody b) (b.length + 1) p
      let run ← slice b p q
      match fromUtf8 run with
      | .error _ => pure (.done (err "json: bad utf-8"))
      | .ok s => pure (.again (q, out ++ s))
  else some (.done (err "json: unterminated string"))

/-- `parse_string`. -/
def parseString (b : List UInt8) (p : ℕ) : Option (Except DslError (String × ℕ)) :=
  loop (parseBody b) (b.length + 1) (p + 1, "")

/-! ### Members and items -/

/-- The loop of `enter_object`, behind a key `k` that ends at `np`. -/
def memberBody (b : List UInt8) (key k : String) (np : ℕ) :
    Option (Round ℕ (Except DslError ℕ)) := do
  let p ← skipWs b np
  if b.length ≤ p then pure (.done (err "json: expected ':'"))
  else do
    let c ← b[p]?
    if c ≠ ch ':' then pure (.done (err "json: expected ':'"))
    else do
      let p ← skipWs b (p + 1)
      if k = key then pure (.done (.ok p))
      else
        match ← skipValue b p with
        | .error e => pure (.done (.error e))
        | .ok p => do
          let p ← skipWs b p
          match b[p]? with
          | none => pure (.done (err "json: malformed object"))
          | some c =>
            if c = ch ',' then pure (.again (p + 1))
            else if c = ch '\x7d' then pure (.done (err "json: key not found"))
            else pure (.done (err "json: malformed object"))

/-- The loop of `enter_object`. -/
def objectBody (b : List UInt8) (key : String) (p : ℕ) :
    Option (Round ℕ (Except DslError ℕ)) := do
  let p ← skipWs b p
  if b.length ≤ p then pure (.done (err "json: unterminated object"))
  else do
    let c ← b[p]?
    if c = ch '\x7d' then pure (.done (err "json: key not found"))
    else if c ≠ ch '"' then pure (.done (err "json: expected a key string"))
    else
      match ← parseString b p with
      | .error e => pure (.done (.error e))
      | .ok (k, np) => memberBody b key k np

/-- `enter_object`. -/
def enterObject (b : List UInt8) (p : ℕ) (key : String) : Option (Except DslError ℕ) :=
  loop (objectBody b key) (b.length + 1) (p + 1)

/-- The loop of `enter_array`, on the position and the index. -/
def arrayBody (b : List UInt8) (target : ℕ) (s : ℕ × ℕ) :
    Option (Round (ℕ × ℕ) (Except DslError ℕ)) := do
  let (p, i) := s
  let p ← skipWs b p
  if b.length ≤ p then pure (.done (err "json: unterminated array"))
  else do
    let c ← b[p]?
    if c = ch ']' then pure (.done (err "json: array index out of range"))
    else if i = target then pure (.done (.ok p))
    else
      match ← skipValue b p with
      | .error e => pure (.done (.error e))
      | .ok p => do
        let p ← skipWs b p
        match b[p]? with
        | none => pure (.done (err "json: malformed array"))
        | some c =>
          if c = ch ',' then pure (.again (p + 1, i + 1))
          else if c = ch ']' then pure (.done (err "json: array index out of range"))
          else pure (.done (err "json: malformed array"))

/-- `enter_array`. -/
def enterArray (b : List UInt8) (p : ℕ) (idx : String) : Option (Except DslError ℕ) :=
  match parseUsize idx with
  | none => some (err "json: array index not a number")
  | some target => loop (arrayBody b target) (b.length + 1) (p + 1, 0)

/-- `enter`. -/
def enter (b : List UInt8) (p : ℕ) (comp : String) : Option (Except DslError ℕ) :=
  if b.length ≤ p then some (err "json: unexpected end")
  else do
    let c ← b[p]?
    if c = ch '\x7b' then enterObject b p comp
    else if c = ch '[' then enterArray b p comp
    else pure (err "json: cannot index a scalar with a path component")

/-! ### Scalars and paths -/

/-- The number at `p` in `parse_scalar`. -/
def parseToken (b : List UInt8) (p : ℕ) : Option (Except DslError (Value × ℕ)) := do
  let q ← loop (tokenBody b) (b.length + 1) p
  let tok ← slice b p q
  pure ((parseNumber tok).map fun v => (v, q))

/-- `parse_scalar`. -/
def parseScalar (b : List UInt8) (p : ℕ) : Option (Except DslError (Value × ℕ)) :=
  match b[p]? with
  | none => some (err "json: unexpected end")
  | some c =>
    if c = ch '"' then do
      let res ← parseString b p
      pure (res.map fun (s, np) => (.str s, np))
    else if c = ch 't' then some (.ok (.bool true, p + 4))
    else if c = ch 'f' then some (.ok (.bool false, p + 5))
    else if c = ch 'n' then some (err "json: value is null")
    else if c = ch '\x7b' ∨ c = ch '[' then
      some (err "json: path leads to an object/array, not a scalar")
    else parseToken b p

/-- The loop of `get` over the components. -/
def followPath (b : List UInt8) : ℕ → List String → Option (Except DslError ℕ)
  | p, [] => some (.ok p)
  | p, comp :: comps => do
    match ← enter b p comp with
    | .error e => pure (.error e)
    | .ok q => do
      let q ← skipWs b q
      followPath b q comps

/-- `json::get` on the bytes of a text. -/
def get (b : List UInt8) (path : String) : Option (Except DslError Value) := do
  let p ← skipWs b 0
  match ← followPath b p (pathComps path) with
  | .error e => pure (.error e)
  | .ok p => do
    let res ← parseScalar b p
    pure (res.map Prod.fst)

/-! ## Reading at a position -/

variable {b : List UInt8} {p : ℕ}

/-- A read behind a look at the position. -/
theorem read_eq {β : Type} (f : UInt8 → Option β) (e : Option β) :
    (if p < b.length then (b[p]? >>= f) else e) = if h : p < b.length then f b[p] else e := by
  split
  · next h => rw [List.getElem?_eq_getElem h]; rfl
  · rfl

theorem advances_ws (b : List UInt8) : Advances id b.length (wsBody b) := by
  refine Advances.of_rounds fun p => ?_
  rw [wsBody, read_eq]
  split
  · refine ⟨_, rfl, fun q h => ?_⟩
    split_ifs at h
    cases h
    exact ⟨Nat.lt_succ_self p, ‹p < b.length›⟩
  · exact ⟨_, rfl, fun q h => by cases h⟩

theorem skipWs_eq (b : List UInt8) (p : ℕ) : skipWs b p = some (Json.skipWs b p) := by
  refine (advances_ws b).loop_eq (fun _ => True) (fun p _ => ?_) trivial
  rw [wsBody, read_eq, Json.skipWs]
  split_ifs with hp hws
  · exact Or.inl ⟨p + 1, rfl, trivial, rfl⟩
  · exact Or.inr rfl
  · exact Or.inr rfl

/-! ## Strings -/

theorem advances_string (b : List UInt8) : Advances id b.length (stringBody b) := by
  refine Advances.of_rounds fun p => ?_
  rw [stringBody, read_eq]
  split
  · next hp =>
    refine ⟨_, rfl, fun q h => ?_⟩
    -- an escape moves on by two, and may jump over the end
    split_ifs at h
    · cases h
      exact ⟨Nat.lt_add_of_pos_right Nat.two_pos, hp⟩
    · cases h
      exact ⟨Nat.lt_succ_self p, hp⟩
  · exact ⟨_, rfl, fun q h => by cases h⟩

theorem skipStringRaw_eq (b : List UInt8) (p : ℕ) :
    skipStringRaw b p = some (Json.skipStringRaw b p) := by
  refine (advances_string b).loop_eq (f := skipStringLoop b) (fun _ => True) (fun p _ => ?_) trivial
  rw [stringBody, read_eq, skipStringLoop]
  split_ifs with hp hescape hquote
  · exact Or.inl ⟨p + 2, rfl, trivial, rfl⟩
  · exact Or.inr rfl
  · exact Or.inl ⟨p + 1, rfl, trivial, rfl⟩
  · exact Or.inr rfl

theorem advances_run (b : List UInt8) : Advances id b.length (runBody b) := by
  refine Advances.of_rounds fun p => ?_
  rw [runBody, read_eq]
  split
  · refine ⟨_, rfl, fun q h => ?_⟩
    split_ifs at h
    cases h
    exact ⟨Nat.lt_succ_self p, ‹p < b.length›⟩
  · exact ⟨_, rfl, fun q h => by cases h⟩

theorem rawRun_eq (b : List UInt8) (p : ℕ) :
    loop (runBody b) (b.length + 1) p = some (rawRun b p) := by
  refine (advances_run b).loop_eq (fun _ => True) (fun p _ => ?_) trivial
  rw [runBody, read_eq, rawRun]
  split_ifs with hp hstop
  · exact Or.inr rfl
  · exact Or.inl ⟨p + 1, rfl, trivial, rfl⟩
  · exact Or.inr rfl

theorem rawRun_le {p : ℕ} (h : p ≤ b.length) : rawRun b p ≤ b.length := by
  fun_induction rawRun b p with
  | case1 p hp hstop => exact h
  | case2 p hp hstop ih => exact ih hp
  | case3 p hp => exact h

theorem hex4_eq (b : List UInt8) (p : ℕ) : hex4 b p = some (Json.hex4 b p) := by
  rw [hex4, Json.hex4]
  split
  · rfl
  · next h =>
    have hslice := slice_of_le (show p ≤ p + 4 by omega) (show p + 4 ≤ b.length by omega)
    rw [Nat.add_sub_cancel_left] at hslice
    rw [hslice]
    rfl

/-- A round of `parse_string` that goes on has read an escape or a run. -/
theorem parseBody_eq {p : ℕ} (hp : p < b.length) (out : String) :
    parseBody b (p, out) = some (
      if b[p] = ch '"' then .done (.ok (out, p + 1))
      else if b[p] = ch '\\' then
        match parseEscape b p with
        | .error e => .done (.error e)
        | .ok (c, q) => .again (q, out.push c)
      else
        match fromUtf8 ((b.drop p).take (rawRun b p - p)) with
        | .error _ => .done (err "json: bad utf-8")
        | .ok s => .again (rawRun b p, out ++ s)) := by
  have hslice := slice_of_le (le_rawRun b p) (rawRun_le hp.le)
  simp only [parseBody]
  rw [read_eq, dif_pos hp]
  split_ifs with hquote hescape
  · rfl
  · unfold parseEscape
    rcases b[p + 1]? with _ | d
    · rfl
    · dsimp only
      rcases shortEscape d with _ | c
      · dsimp only
        split_ifs with hu
        · rw [hex4_eq]
          cases Json.hex4 b (p + 2) <;> rfl
        · rfl
      · rfl
  · rw [rawRun_eq]
    refine bind_eq_of_some rfl (bind_eq_of_some hslice ?_)
    cases fromUtf8 ((b.drop p).take (rawRun b p - p)) <;> rfl

theorem parseBody_end {p : ℕ} (hp : ¬ p < b.length) (out : String) :
    parseBody b (p, out) = some (.done (err "json: unterminated string")) := by
  simp only [parseBody]
  rw [if_neg hp]

theorem advances_parse (b : List UInt8) : Advances Prod.fst b.length (parseBody b) := by
  refine Advances.of_rounds fun (p, out) => ?_
  by_cases hp : p < b.length
  · refine ⟨_, parseBody_eq hp out, fun s' h => ?_⟩
    split_ifs at h with hquote hescape
    · -- an escape has two bytes or six
      rcases hq : parseEscape b p with e | ⟨c, q⟩
      · rw [hq] at h
        cases h
      · rw [hq] at h
        cases h
        have hlt := parseEscape_lt hq
        exact ⟨by dsimp only; omega, hp⟩
    · rcases hrun : fromUtf8 ((b.drop p).take (rawRun b p - p)) with e | s
      · rw [hrun] at h
        cases h
      · rw [hrun] at h
        cases h
        exact ⟨lt_rawRun hp hquote hescape, hp⟩
  · exact ⟨_, parseBody_end hp out, fun s' h => by cases h⟩

theorem parseString_eq (b : List UInt8) (p : ℕ) :
    parseString b p = some (Json.parseString b p) := by
  refine (advances_parse b).loop_eq (f := fun s => parseStringLoop b s.1 s.2) (fun _ => True)
    (fun (p, out) _ => ?_) trivial
  dsimp only
  by_cases hp : p < b.length
  · rw [parseBody_eq hp, parseStringLoop, dif_pos hp]
    split_ifs with hquote hescape
    · exact Or.inr rfl
    · rcases parseEscape b p with e | ⟨c, q⟩
      · exact Or.inr rfl
      · exact Or.inl ⟨(q, out.push c), rfl, trivial, rfl⟩
    · rcases hrun : fromUtf8 ((b.drop p).take (rawRun b p - p)) with e | s
      · exact Or.inr rfl
      · exact Or.inl ⟨(rawRun b p, out ++ s), rfl, trivial, rfl⟩
  · rw [parseBody_end hp, parseStringLoop, dif_neg hp]
    exact Or.inr rfl

/-! ## Values -/

theorem advances_token (b : List UInt8) : Advances id b.length (tokenBody b) := by
  refine Advances.of_rounds fun p => ?_
  rw [tokenBody, read_eq]
  split
  · refine ⟨_, rfl, fun q h => ?_⟩
    split_ifs at h
    cases h
    exact ⟨Nat.lt_succ_self p, ‹p < b.length›⟩
  · exact ⟨_, rfl, fun q h => by cases h⟩

theorem scanToken_eq (b : List UInt8) (p : ℕ) :
    loop (tokenBody b) (b.length + 1) p = some (scanToken b p) := by
  refine (advances_token b).loop_eq (fun _ => True) (fun p _ => ?_) trivial
  rw [tokenBody, read_eq, scanToken]
  split_ifs with hp hstop
  · exact Or.inr rfl
  · exact Or.inl ⟨p + 1, rfl, trivial, rfl⟩
  · exact Or.inr rfl

/-- A round of the container loop, at a byte of the text. -/
theorem containerBody_eq {q : ℕ} (hq : q < b.length) (depth : Int32) :
    containerBody b (q, depth) = some (
      if b[q] = ch '"' then
        match Json.skipStringRaw b q with
        | .error e => .done (.error e)
        | .ok r => .again (r, depth)
      else if b[q] = ch '\x7b' ∨ b[q] = ch '[' then .again (q + 1, depth + 1)
      else if b[q] = ch '\x7d' ∨ b[q] = ch ']' then
        if depth - 1 = 0 then .done (.ok (q + 1)) else .again (q + 1, depth - 1)
      else .again (q + 1, depth)) := by
  simp only [containerBody]
  rw [read_eq, dif_pos hq]
  split_ifs with hquote
  · rw [skipStringRaw_eq]
    cases Json.skipStringRaw b q <;> rfl
  all_goals rfl

theorem containerBody_end {q : ℕ} (hq : ¬ q < b.length) (depth : Int32) :
    containerBody b (q, depth) = some (.done (err "json: unterminated container")) := by
  simp only [containerBody]
  rw [if_neg hq]

/-- **The container loop advances**, whatever becomes of the depth. -/
theorem advances_container (b : List UInt8) : Advances Prod.fst b.length (containerBody b) := by
  refine Advances.of_rounds fun (q, depth) => ?_
  by_cases hq : q < b.length
  · refine ⟨_, containerBody_eq hq depth, fun s' h => ?_⟩
    have hnext : ∀ d : Int32, Round.again (α := Except DslError ℕ) (q + 1, d) = .again s' →
        q < s'.1 ∧ q < b.length := by
      intro d heq
      cases heq
      exact ⟨Nat.lt_succ_self q, hq⟩
    split_ifs at h
    · rcases hs : Json.skipStringRaw b q with e | r
      · rw [hs] at h
        cases h
      · rw [hs] at h
        cases h
        have hlt := skipStringLoop_lt hs
        exact ⟨by dsimp only; omega, hq⟩
    · exact hnext _ h
    · exact hnext _ h
    · exact hnext _ h
  · exact ⟨_, containerBody_end hq depth, fun s' h => by cases h⟩

/-- A container ends behind where it begins. -/
theorem lt_of_container {p q : ℕ} {depth : Int32}
    (h : loop (containerBody b) (b.length + 1) (p, depth) = some (.ok q)) : p < q := by
  refine loop_post (fun s => p ≤ s.1) (fun a => ∀ q, a = .ok q → p < q)
    (fun s s' hs hround => ?_) (fun (r, d) a hs hround q hq => ?_) le_rfl h q rfl
  · have hmove := (advances_container b).advance s s' hround
    omega
  · subst hq
    by_cases hr : r < b.length
    · rw [containerBody_eq hr] at hround
      split_ifs at hround
      · cases hskip : Json.skipStringRaw b r <;> simp [hskip] at hround
      · cases hround
      · cases hround
        exact Nat.lt_succ_of_le hs
      · cases hround
      · cases hround
    · rw [containerBody_end hr] at hround
      cases hround

/-- **A value is skipped** without a panic, and not backwards. -/
theorem exists_skipValue (b : List UInt8) (p : ℕ) :
    ∃ r, skipValue b p = some r ∧ ∀ q, r = .ok q → p ≤ q := by
  have hws := le_skipWs b p
  rw [skipValue, skipWs_eq]
  simp only [Option.bind_eq_bind, Option.bind_some]
  rcases b[Json.skipWs b p]? with _ | c
  · exact ⟨_, rfl, fun q h => by cases h⟩
  dsimp only
  split_ifs
  · obtain ⟨r, hr⟩ := (advances_container b).exists_loop (Json.skipWs b p, 0)
    refine ⟨r, hr, fun q hq => ?_⟩
    rw [hq] at hr
    exact hws.trans (lt_of_container hr).le
  · refine ⟨_, skipStringRaw_eq b _, fun q hq => ?_⟩
    have hlt := skipStringLoop_lt hq
    omega
  · rw [scanToken_eq]
    refine ⟨_, rfl, fun q hq => ?_⟩
    have htoken := le_scanToken b (Json.skipWs b p)
    cases hq
    exact hws.trans htoken

/-! ## Objects and arrays -/

/-- A round that ends the loop does not go on. -/
theorem exists_done {σ α : Type} {P : σ → Prop} (a : α) :
    ∃ r : Round σ α, some (.done a) = some r ∧ ∀ s', r = .again s' → P s' :=
  ⟨_, rfl, fun _ h => by cases h⟩

/-- Behind a key a round returns, and if it goes on it is further on. -/
theorem exists_memberBody (b : List UInt8) (key k : String) (np : ℕ) :
    ∃ r, memberBody b key k np = some r ∧ ∀ s', r = .again s' → np < s' := by
  have hcolon := le_skipWs b np
  refine exists_bind_of_some (skipWs_eq b np) ?_
  split
  · exact exists_done _
  next hlt =>
  refine exists_bind_of_some (List.getElem?_eq_getElem (Nat.lt_of_not_le hlt)) ?_
  split
  · exact exists_done _
  refine exists_bind_of_some (skipWs_eq b _) ?_
  split
  · exact exists_done _
  -- another member: its value is skipped
  have hgap := le_skipWs b (Json.skipWs b np + 1)
  obtain ⟨r, hr, hle⟩ := exists_skipValue b (Json.skipWs b (Json.skipWs b np + 1))
  refine exists_bind_of_some hr ?_
  rcases r with e | q
  · exact exists_done _
  have hvalue := hle q rfl
  have hafter := le_skipWs b q
  refine exists_bind_of_some (skipWs_eq b q) ?_
  rcases b[Json.skipWs b q]? with _ | c
  · exact exists_done _
  dsimp only
  split_ifs
  · refine ⟨_, rfl, fun s' h => ?_⟩
    cases h
    omega
  · exact exists_done _
  · exact exists_done _

/-- **A round of `enter_object`** returns, and reads a member before it goes on. -/
theorem advances_object (b : List UInt8) (key : String) :
    Advances id b.length (objectBody b key) := by
  refine Advances.of_rounds fun p => ?_
  have hws := le_skipWs b p
  refine exists_bind_of_some (skipWs_eq b p) ?_
  split
  · exact exists_done _
  next hend =>
  refine exists_bind_of_some (List.getElem?_eq_getElem (Nat.lt_of_not_le hend)) ?_
  split_ifs
  · exact exists_done _
  · exact exists_done _
  · refine exists_bind_of_some (parseString_eq b _) ?_
    rcases hkey : Json.parseString b (Json.skipWs b p) with e | ⟨k, np⟩
    · exact exists_done _
    have hkeylt := parseString_lt hkey
    obtain ⟨r, hr, hmove⟩ := exists_memberBody b key k np
    refine ⟨r, hr, fun s' hs' => ?_⟩
    have hlt := hmove s' hs'
    exact ⟨show p < s' by omega, show p < b.length by omega⟩

/-- **A round of `enter_array`** returns, and skips an element before it goes on. -/
theorem advances_array (b : List UInt8) (target : ℕ) :
    Advances Prod.fst b.length (arrayBody b target) := by
  refine Advances.of_rounds fun (p, i) => ?_
  have hws := le_skipWs b p
  refine exists_bind_of_some (skipWs_eq b p) ?_
  split
  · exact exists_done _
  next hend =>
  refine exists_bind_of_some (List.getElem?_eq_getElem (Nat.lt_of_not_le hend)) ?_
  split_ifs
  · exact exists_done _
  · exact exists_done _
  · obtain ⟨r, hr, hle⟩ := exists_skipValue b (Json.skipWs b p)
    refine exists_bind_of_some hr ?_
    rcases r with e | q
    · exact exists_done _
    have hvalue := hle q rfl
    have hafter := le_skipWs b q
    refine exists_bind_of_some (skipWs_eq b q) ?_
    rcases b[Json.skipWs b q]? with _ | c
    · exact exists_done _
    dsimp only
    split_ifs
    · refine ⟨_, rfl, fun s' h => ?_⟩
      cases h
      exact ⟨show p < Json.skipWs b q + 1 by omega, show p < b.length by omega⟩
    · exact exists_done _
    · exact exists_done _

/-! ## The whole scanner -/

theorem exists_enter (b : List UInt8) (p : ℕ) (comp : String) : ∃ r, enter b p comp = some r := by
  rw [enter]
  split
  · exact ⟨_, rfl⟩
  next hend =>
  rw [List.getElem?_eq_getElem (Nat.lt_of_not_le hend)]
  simp only [Option.bind_eq_bind, Option.bind_some]
  split_ifs
  · exact (advances_object b comp).exists_loop (p + 1)
  · rw [enterArray]
    rcases parseUsize comp with _ | target
    · exact ⟨_, rfl⟩
    · exact (advances_array b target).exists_loop (p + 1, 0)
  · exact ⟨_, rfl⟩

theorem exists_followPath (b : List UInt8) (comps : List String) (p : ℕ) :
    ∃ r, followPath b p comps = some r := by
  induction comps generalizing p with
  | nil => exact ⟨_, rfl⟩
  | cons comp comps ih =>
    obtain ⟨r, hr⟩ := exists_enter b p comp
    rw [followPath, hr]
    rcases r with e | q
    · exact ⟨_, rfl⟩
    · obtain ⟨r', hr'⟩ := ih (Json.skipWs b q)
      exact ⟨r', bind_eq_of_some rfl (bind_eq_of_some (skipWs_eq b q) hr')⟩

theorem scanToken_le {q : ℕ} (h : q ≤ b.length) : scanToken b q ≤ b.length := by
  fun_induction scanToken b q with
  | case1 q hq hstop => exact h
  | case2 q hq hstop ih => exact ih hq
  | case3 q hq => exact h

theorem parseScalar_eq (b : List UInt8) (p : ℕ) :
    parseScalar b p = some (Json.parseScalar b p) := by
  rw [parseScalar, Json.parseScalar]
  rcases hb : b[p]? with _ | c
  · rfl
  have hp : p < b.length := (List.getElem?_eq_some_iff.mp hb).1
  dsimp only
  split_ifs
  · exact bind_eq_of_some (parseString_eq b p) rfl
  · rfl
  · rfl
  · rfl
  · rfl
  · have hslice := slice_of_le (le_scanToken b p) (scanToken_le hp.le)
    exact bind_eq_of_some (scanToken_eq b p) (bind_eq_of_some hslice rfl)

/-! ## Below 2 GiB -/

/-- The depth of a container counts its brackets, and there are no more than bytes before. -/
def Counts (b : List UInt8) (s : ℕ × Int32) : Prop :=
  0 ≤ s.2.toInt ∧ s.2.toInt ≤ s.1 ∧
    (s.2.toInt = 0 → ∀ h : s.1 < b.length, b[s.1] = ch '\x7b' ∨ b[s.1] = ch '[')

/-- Where the depth does not wrap, the loop counts like the model without machine words. -/
theorem container_eq (hb : b.length < 2 ^ 31) {p : ℕ} {depth : Int32}
    (h : Counts b (p, depth)) : loop (containerBody b) (b.length + 1) (p, depth) =
      some (skipContainer b p depth.toInt.toNat) := by
  refine (advances_container b).loop_eq (f := fun s => skipContainer b s.1 s.2.toInt.toNat)
    (Counts b) (fun (q, d) hs => ?_) h
  obtain ⟨hpos, hle, hopen⟩ := hs
  dsimp only at hpos hle hopen ⊢
  have hone : (1 : Int32).toInt = 1 := rfl
  by_cases hq : q < b.length
  · -- below 2 GiB the depth is no more than the position, so it cannot wrap
    have hsucc : (d + 1).toInt = d.toInt + 1 := by
      rw [Int32.toInt_add, hone, Int.bmod_eq_of_le_mul_two (by omega) (by omega)]
    have hpred : (d - 1).toInt = d.toInt - 1 := by
      rw [Int32.toInt_sub, hone, Int.bmod_eq_of_le_mul_two (by omega) (by omega)]
    have hquoteNe : ch '"' ≠ ch '\x7b' ∧ ch '"' ≠ ch '[' := by decide
    have hzero : d - 1 = 0 ↔ d.toInt = 1 := by
      rw [← Int32.toInt_inj, hpred, Int32.toInt_zero]
      omega
    rw [containerBody_eq hq, skipContainer, dif_pos hq]
    by_cases hquote : b[q] = ch '"'
    · -- a string, which does not begin a container
      have hdepth : d.toInt ≠ 0 := by
        intro h0
        rcases hopen h0 hq with h | h
        · exact hquoteNe.1 (hquote.symm.trans h)
        · exact hquoteNe.2 (hquote.symm.trans h)
      rw [if_pos hquote, if_pos hquote]
      rcases hskip : Json.skipStringRaw b q with e | r
      · exact Or.inr rfl
      · have hlt := skipStringLoop_lt hskip
        exact Or.inl
          ⟨(r, d), rfl, ⟨hpos, by dsimp only; omega, fun h0 => absurd h0 hdepth⟩, rfl⟩
    rw [if_neg hquote, if_neg hquote]
    -- a bracket opens a level
    by_cases hbracket : b[q] = ch '\x7b' ∨ b[q] = ch '['
    · rw [if_pos hbracket, if_pos hbracket]
      refine Or.inl ⟨(q + 1, d + 1), rfl, ⟨by dsimp only; omega, by dsimp only; omega, fun h0 => ?_⟩, ?_⟩
      · dsimp only at h0
        omega
      · have hnat : (d + 1).toInt.toNat = d.toInt.toNat + 1 := by omega
        dsimp only
        rw [hnat]
    have hdepth : d.toInt ≠ 0 := fun h0 => hbracket (hopen h0 hq)
    rw [if_neg hbracket, if_neg hbracket]
    -- a bracket closes one, and perhaps the container
    by_cases hclose : b[q] = ch '\x7d' ∨ b[q] = ch ']'
    · rw [if_pos hclose, if_pos hclose]
      by_cases hone' : d.toInt = 1
      · rw [if_pos (hzero.mpr hone'), if_pos (by omega)]
        exact Or.inr rfl
      · rw [if_neg (fun h => hone' (hzero.mp h)), if_neg (by omega)]
        refine Or.inl ⟨(q + 1, d - 1), rfl, ⟨by dsimp only; omega, by dsimp only; omega, fun h0 => ?_⟩, ?_⟩
        · dsimp only at h0
          omega
        · have hnat : (d - 1).toInt.toNat = d.toInt.toNat - 1 := by omega
          dsimp only
          rw [hnat]
    · rw [if_neg hclose, if_neg hclose]
      exact Or.inl ⟨(q + 1, d), rfl, ⟨hpos, by dsimp only; omega, fun h0 => absurd h0 hdepth⟩, rfl⟩
  · rw [containerBody_end hq, skipContainer, dif_neg hq]
    exact Or.inr rfl

theorem skipValue_eq (hb : b.length < 2 ^ 31) (p : ℕ) :
    skipValue b p = some (Json.skipValue b p) := by
  refine bind_eq_of_some (skipWs_eq b p) ?_
  rw [Json.skipValue]
  rcases hc : b[Json.skipWs b p]? with _ | c
  · rfl
  dsimp only
  split_ifs with hbracket
  · -- the depth is 0 at the first bracket
    refine container_eq hb ⟨le_rfl, ?_, fun _ h => ?_⟩
    · exact Int.natCast_nonneg _
    · rw [List.getElem?_eq_getElem h, Option.some_inj] at hc
      rwa [hc]
  · exact skipStringRaw_eq b _
  · exact bind_eq_of_some (scanToken_eq b _) rfl

/-! ### Loops that agree -/

/-- A round and a result: the result goes on as the round does. -/
def Agrees {σ : Type} (f : σ → Except DslError ℕ) (x : Option (Round σ (Except DslError ℕ)))
    (res : Except DslError ℕ) : Prop :=
  (∃ s', x = some (.again s') ∧ True ∧ res = f s') ∨ x = some (.done res)

theorem Agrees.bind {σ α : Type} {f : σ → Except DslError ℕ} {res : Except DslError ℕ}
    {x : Option α} {a : α} {g : α → Option (Round σ (Except DslError ℕ))} (hx : x = some a)
    (h : Agrees f (g a) res) : Agrees f (x >>= g) res := by
  rw [hx]
  exact h

theorem Agrees.done {σ : Type} {f : σ → Except DslError ℕ} (res : Except DslError ℕ) :
    Agrees f (some (.done res)) res := Or.inr rfl

/-! ### Entering and following -/

theorem enterObject_eq (hb : b.length < 2 ^ 31) (p : ℕ) (key : String) :
    enterObject b p key = some (Json.enterObject b p key) := by
  refine (advances_object b key).loop_eq (f := fun p => enterObjectLoop b p key) (fun _ => True)
    (fun p _ => ?_) trivial
  show Agrees (fun p => enterObjectLoop b p key) (objectBody b key p) (enterObjectLoop b p key)
  rw [objectBody, enterObjectLoop]
  refine Agrees.bind (skipWs_eq b p) ?_
  rcases hc : b[Json.skipWs b p]? with _ | c
  · rw [if_pos (List.getElem?_eq_none_iff.mp hc)]
    exact Agrees.done _
  have hlt := (List.getElem?_eq_some_iff.mp hc).1
  rw [if_neg (Nat.not_le.mpr hlt)]
  refine Agrees.bind rfl ?_
  dsimp only
  split_ifs with hend hquote
  · exact Agrees.done _
  · exact Agrees.done _
  refine Agrees.bind (parseString_eq b _) ?_
  rcases Json.parseString b (Json.skipWs b p) with e | ⟨k, np⟩
  · exact Agrees.done _
  -- behind the key: the colon, and a member that is the one or is skipped
  dsimp only
  refine Agrees.bind (skipWs_eq b np) ?_
  rcases hcolon : b[Json.skipWs b np]? with _ | c'
  · rw [if_pos (List.getElem?_eq_none_iff.mp hcolon), if_pos (by simp)]
    exact Agrees.done _
  have hlt' := (List.getElem?_eq_some_iff.mp hcolon).1
  rw [if_neg (Nat.not_le.mpr hlt')]
  refine Agrees.bind rfl ?_
  by_cases hother : c' = ch ':'
  swap
  · rw [if_pos hother, if_pos (by simpa using hother)]
    exact Agrees.done _
  rw [if_neg (not_not_intro hother), if_neg (by simpa using hother)]
  refine Agrees.bind (skipWs_eq b _) ?_
  by_cases hkey : k = key
  · rw [if_pos hkey, if_pos hkey]
    exact Agrees.done _
  rw [if_neg hkey, if_neg hkey]
  refine Agrees.bind (skipValue_eq hb _) ?_
  rcases Json.skipValue b (Json.skipWs b (Json.skipWs b np + 1)) with e | q
  · exact Agrees.done _
  dsimp only
  refine Agrees.bind (skipWs_eq b q) ?_
  rcases b[Json.skipWs b q]? with _ | c''
  · exact Agrees.done _
  dsimp only
  split_ifs
  · exact Or.inl ⟨_, rfl, trivial, rfl⟩
  · exact Agrees.done _
  · exact Agrees.done _

theorem enterArray_eq (hb : b.length < 2 ^ 31) (p : ℕ) (idx : String) :
    enterArray b p idx = some (Json.enterArray b p idx) := by
  rw [enterArray, Json.enterArray]
  rcases parseUsize idx with _ | target
  · rfl
  refine (advances_array b target).loop_eq (f := fun s => enterArrayLoop b s.1 s.2 target)
    (fun _ => True) (fun (p, i) _ => ?_) trivial
  show Agrees (fun s => enterArrayLoop b s.1 s.2 target) (arrayBody b target (p, i))
    (enterArrayLoop b p i target)
  rw [enterArrayLoop]
  refine Agrees.bind (skipWs_eq b p) ?_
  rcases hc : b[Json.skipWs b p]? with _ | c
  · rw [if_pos (List.getElem?_eq_none_iff.mp hc)]
    exact Agrees.done _
  have hlt := (List.getElem?_eq_some_iff.mp hc).1
  rw [if_neg (Nat.not_le.mpr hlt)]
  refine Agrees.bind rfl ?_
  dsimp only
  split_ifs with hend hfound
  · exact Agrees.done _
  · exact Agrees.done _
  refine Agrees.bind (skipValue_eq hb _) ?_
  rcases Json.skipValue b (Json.skipWs b p) with e | q
  · exact Agrees.done _
  dsimp only
  refine Agrees.bind (skipWs_eq b q) ?_
  rcases b[Json.skipWs b q]? with _ | c'
  · exact Agrees.done _
  dsimp only
  split_ifs
  · exact Or.inl ⟨_, rfl, trivial, rfl⟩
  · exact Agrees.done _
  · exact Agrees.done _

theorem enter_eq (hb : b.length < 2 ^ 31) (p : ℕ) (comp : String) :
    enter b p comp = some (Json.enter b p comp) := by
  rw [enter, Json.enter]
  rcases hc : b[p]? with _ | c
  · rw [if_pos (List.getElem?_eq_none_iff.mp hc)]
  have hlt := (List.getElem?_eq_some_iff.mp hc).1
  rw [if_neg (Nat.not_le.mpr hlt)]
  refine bind_eq_of_some rfl ?_
  dsimp only
  split_ifs
  · exact enterObject_eq hb p comp
  · exact enterArray_eq hb p comp
  · rfl

theorem followPath_eq (hb : b.length < 2 ^ 31) (comps : List String) (p : ℕ) :
    followPath b p comps = some (Json.followPath b p comps) := by
  induction comps generalizing p with
  | nil => rfl
  | cons comp comps ih =>
    rw [followPath, Json.followPath]
    refine bind_eq_of_some (enter_eq hb p comp) ?_
    rcases Json.enter b p comp with e | q
    · rfl
    · exact bind_eq_of_some (skipWs_eq b q) (ih _)

/-- **The scanner of the other modules**, on a text below 2 GiB. -/
theorem get_eq (hb : b.length < 2 ^ 31) (path : String) : get b path = some (Json.get b path) := by
  rw [Json.get]
  refine bind_eq_of_some (skipWs_eq b 0) ?_
  refine bind_eq_of_some (followPath_eq hb (pathComps path) _) ?_
  rcases Json.followPath b (Json.skipWs b 0) (pathComps path) with e | p
  · rfl
  · exact bind_eq_of_some (parseScalar_eq b p) rfl

/-- **The scanner terminates safely.**  For every text and every path, `get` returns: no access
is out of bounds and no loop runs out of rounds, of which there is one more than bytes.  Every
round of every loop returns, and one that goes on has moved its position on. -/
theorem get_returns (b : List UInt8) :
    (∀ path, ∃ r, get b path = some r) ∧
    (∀ key, Advances id b.length (objectBody b key)) ∧
    (∀ target, Advances Prod.fst b.length (arrayBody b target)) ∧
    Advances Prod.fst b.length (containerBody b) ∧ Advances id b.length (tokenBody b) ∧
    Advances id b.length (stringBody b) ∧
    Advances Prod.fst b.length (parseBody b) ∧ Advances id b.length (runBody b) ∧
    Advances id b.length (wsBody b) := by
  refine ⟨fun path => ?_, advances_object b, advances_array b, advances_container b,
    advances_token b, advances_string b, advances_parse b, advances_run b, advances_ws b⟩
  obtain ⟨r, hr⟩ := exists_followPath b (pathComps path) (Json.skipWs b 0)
  rw [get, skipWs_eq]
  simp only [Option.bind_eq_bind, Option.bind_some, hr]
  rcases r with e | p
  · exact ⟨_, rfl⟩
  · exact ⟨_, bind_eq_of_some (parseScalar_eq b p) rfl⟩

end Json.Scan
