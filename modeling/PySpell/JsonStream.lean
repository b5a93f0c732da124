/-
# Extracting a field from a response while it arrives

`json_probe` of `eval.rs` runs `json::get` on the bytes received so far, cut back
to whole characters, and `fetch_extract` (`net.rs` of the device, and the default
of the trait in `eval.rs`) probes after each chunk and stops at the first value.

What a probe finds in a prefix is what `get` finds in the whole body, except in
one situation (`CutsNumber`): the path leads to a number, the received text ends
inside its token, and the digits received so far read as another number.
`probe_agrees_iff` shows that this is the only exception, for every body, path and
prefix; `streaming_agrees_iff` says so for the streaming loop and every way of
cutting the body into chunks.
-/
import PySpell.JsonPrefix
import PySpell.Lib.JsonGrammar

namespace Json

open Text

/-! ## The probe -/

/-- The part of a buffer that is valid UTF-8, up to the first bad byte. -/
def wholeChars (buf : List UInt8) : List UInt8 := buf.take (validPrefix buf).2

/-- `json_probe`. -/
def jsonProbe (path : String) (buf : List UInt8) : Option Value :=
  match fromUtf8 buf with
  | .ok _ => (get buf path).toOption
  | .error n =>
    match fromUtf8 (buf.take n) with
    | .ok _ => (get (buf.take n) path).toOption
    | .error _ => none

/-- `MAX_BUFFER`: the cap on the bytes buffered while looking for a field. -/
def maxBuffer : ℕ := 16 * 1024

/-- The chunk callback of `DeviceNet::fetch_extract`, run over the chunks in
order: the bytes accumulated and the value found when it stops. -/
def probeChunks (probe : List UInt8 → Option Value) :
    List (List UInt8) → List UInt8 → List UInt8 × Option Value
  | [], acc => (acc, none)
  | chunk :: chunks, acc =>
    let acc := acc ++ chunk
    match probe acc with
    | some v => (acc, some v)
    | none => if maxBuffer < acc.length then (acc, none) else probeChunks probe chunks acc

/-- `DeviceNet::fetch_extract`.  `stream` stands for the transport: the error that
keeps it from opening the connection, or the blocks it would read. -/
def deviceFetchExtract (stream : Except DslError (List (List UInt8)))
    (probe : List UInt8 → Option Value) : Except DslError Value :=
  match stream with
  | .error e => .error e
  | .ok chunks =>
    match probeChunks probe chunks [] with
    | (_, some v) => .ok v
    | (acc, none) =>
      if maxBuffer < acc.length then .error (.net "field not found within buffer cap")
      else .error (.net "field not found in response")

/-- `Net::fetch_extract` as the trait gives it: one probe of the whole body. -/
def defaultFetchExtract (fetch : Except DslError String)
    (probe : List UInt8 → Option Value) : Except DslError Value :=
  match fetch with
  | .error e => .error e
  | .ok body =>
    match probe (utf8 body) with
    | some v => .ok v
    | none => .error (.net "field not found in response")

/-- A probe reads the whole characters of its buffer. -/
theorem jsonProbe_eq (path : String) (buf : List UInt8) :
    jsonProbe path buf = (get (wholeChars buf) path).toOption := by
  unfold jsonProbe wholeChars
  rcases h : fromUtf8 buf with n | s
  · have hn : n = (validPrefix buf).2 := by
      unfold fromUtf8 at h
      split at h
      · cases h
      · exact (Except.error.inj h).symm
    simp only [hn, fromUtf8_take]
  · have hn : (validPrefix buf).2 = buf.length := by
      unfold fromUtf8 at h
      split at h
      · assumption
      · cases h
    rw [hn, List.take_length]

/-! ## Where a prefix and the body differ -/

/-- **The received text `s` of the body `d` cuts a number**: the path leads in `s`
to the first byte of a number whose token goes on in `d` after the end of `s`, the
part of it in `s` reads as a number, and the token does not read as that number. -/
def CutsNumber (d : List UInt8) (path : String) (s : List UInt8) : Prop :=
  ∃ p c v, followPath s (skipWs s 0) (pathComps path) = .ok p ∧
    s[p]? = some c ∧ startsNumber c = true ∧ s.length < scanToken d p ∧
    parseNumber (s.drop p) = .ok v ∧ parseNumber (tokenAt d p) ≠ .ok v

/-- `get` finds a value: the path leads to a byte, and the scalar there is read. -/
theorem get_eq_ok {b : List UInt8} {path : String} {v : Value} :
    get b path = .ok v ↔
      ∃ p c, followPath b (skipWs b 0) (pathComps path) = .ok p ∧ b[p]? = some c ∧
        (parseScalar b p).map Prod.fst = .ok v := by
  unfold get
  rcases hp : followPath b (skipWs b 0) (pathComps path) with e | p
  · simp
  · rcases hb : b[p]? with _ | c
    · simp [parseScalar, hb, err, Except.map]
    · simp [hb]

/-- A token that does not end inside the prefix is cut by its end. -/
theorem tokenAt_of_length_le {s : List UInt8} {p : ℕ} (h : s.length ≤ scanToken s p) :
    tokenAt s p = s.drop p := by
  rw [tokenAt, List.take_of_length_le (by simp; omega)]

/-- **What `get` finds in a prefix it finds in the body, unless the prefix cuts a
number.** -/
theorem get_append {s r : List UInt8} {path : String} {v : Value} (h : get s path = .ok v)
    (hcut : ¬ CutsNumber (s ++ r) path s) : get (s ++ r) path = .ok v := by
  obtain ⟨p, c, hp, hb, hv⟩ := get_eq_ok.mp h
  have hlt := (List.getElem?_eq_some_iff.mp hb).1
  have hws : skipWs (s ++ r) 0 = skipWs s 0 :=
    skipWs_append r (lt_of_le_of_lt (le_of_followPath hp) hlt)
  refine get_eq_ok.mpr ⟨p, c, ?_, getElem?_append_of_some r hb, ?_⟩
  · rw [hws]
    exact followPath_append r hp hlt
  · by_cases hc : startsNumber c = true
    · rw [parseScalar_of_startsNumber (getElem?_append_of_some r hb) hc]
      rw [parseScalar_of_startsNumber hb hc] at hv
      rcases lt_or_ge (scanToken s p) s.length with hin | hend
      · -- a delimiter follows the token in the prefix
        rwa [tokenAt_append r hin]
      · -- the prefix ends with the token or inside it
        rw [tokenAt_of_length_le hend] at hv
        by_contra hne
        have hge := scanToken_le_append (b := s) r p
        refine hcut ⟨p, c, v, hp, hb, hc, lt_of_le_of_ne (by omega) ?_, hv, hne⟩
        intro heq
        apply hne
        rw [tokenAt, ← heq, take_drop_append r (by omega), List.take_of_length_le (by simp)]
        exact hv
    · exact parseScalar_append r hb (Bool.eq_false_iff.mpr hc) hv

/-- A prefix that cuts a number makes `get` find a value that the body does not
have there. -/
theorem get_of_cutsNumber {s r : List UInt8} {path : String} (h : CutsNumber (s ++ r) path s) :
    ∃ v, get s path = .ok v ∧ get (s ++ r) path ≠ .ok v := by
  obtain ⟨p, c, v, hp, hb, hc, hlong, hv, hne⟩ := h
  have hlt := (List.getElem?_eq_some_iff.mp hb).1
  have hws : skipWs (s ++ r) 0 = skipWs s 0 :=
    skipWs_append r (lt_of_le_of_lt (le_of_followPath hp) hlt)
  have hend : s.length ≤ scanToken s p := by
    by_contra hin
    rw [scanToken_append r (by omega)] at hlong
    omega
  refine ⟨v, get_eq_ok.mpr ⟨p, c, hp, hb, ?_⟩, fun hget => ?_⟩
  · rw [parseScalar_of_startsNumber hb hc, tokenAt_of_length_le hend, hv]
  · obtain ⟨p', c', hp', hb', hv'⟩ := get_eq_ok.mp hget
    rw [hws, followPath_append r hp hlt] at hp'
    obtain rfl := Except.ok.inj hp'
    rw [parseScalar_of_startsNumber (getElem?_append_of_some r hb) hc] at hv'
    exact hne hv'

/-! ## Probing while the body arrives -/

/-- The whole characters of a prefix of the body are a prefix of the body. -/
theorem wholeChars_prefix {buf d : List UInt8} (h : buf <+: d) : wholeChars buf <+: d :=
  (List.take_prefix _ _).trans h

/-- **A probe of a prefix agrees with the body exactly when it cuts no number.** -/
theorem probe_agrees_iff {buf d : List UInt8} {path : String} (h : buf <+: d) :
    (∀ v, jsonProbe path buf = some v → get d path = .ok v) ↔
      ¬ CutsNumber d path (wholeChars buf) := by
  obtain ⟨r, rfl⟩ := wholeChars_prefix h
  have hprobe : ∀ v, jsonProbe path buf = some v ↔ get (wholeChars buf) path = .ok v := by
    intro v
    rw [jsonProbe_eq]
    cases get (wholeChars buf) path <;> simp [Except.toOption]
  simp only [hprobe]
  constructor
  · intro hall hcut
    obtain ⟨v, hv, hne⟩ := get_of_cutsNumber hcut
    exact hne (hall v hv)
  · exact fun hcut v hv => get_append hv hcut

/-- The streaming loop returns what a probe of some received prefix found. -/
theorem probeChunks_eq_some {probe : List UInt8 → Option Value} {chunks : List (List UInt8)} :
    ∀ {acc : List UInt8} {v : Value}, (probeChunks probe chunks acc).2 = some v →
      ∃ n, probe (acc ++ (chunks.take n).flatten) = some v := by
  induction chunks with
  | nil => simp [probeChunks]
  | cons chunk chunks ih =>
    intro acc v h
    simp only [probeChunks] at h
    split at h
    · next w hw =>
      obtain rfl : w = v := by simpa using h
      exact ⟨1, by simpa using hw⟩
    · split_ifs at h with hcap
      obtain ⟨n, hn⟩ := ih h
      exact ⟨n + 1, by simpa using hn⟩

theorem deviceFetchExtract_eq_ok {chunks : List (List UInt8)} {probe : List UInt8 → Option Value}
    {v : Value} : deviceFetchExtract (.ok chunks) probe = .ok v ↔
      (probeChunks probe chunks []).2 = some v := by
  rw [deviceFetchExtract]
  rcases h : probeChunks probe chunks [] with ⟨acc, _ | w⟩
  · dsimp only
    split_ifs <;> simp
  · simp

/-- The trait's own `fetch_extract` probes the whole body and finds what is there. -/
theorem defaultFetchExtract_eq_ok {d : String} {path : String} {v : Value} :
    defaultFetchExtract (.ok d) (jsonProbe path) = .ok v ↔ get (utf8 d) path = .ok v := by
  have hwhole : wholeChars (utf8 d) = utf8 d := by
    rw [wholeChars, utf8, validPrefix_encode, List.take_length]
  simp only [defaultFetchExtract, jsonProbe_eq, hwhole]
  cases get (utf8 d) path <;> simp [Except.toOption]

/-- **Streaming extraction agrees with extraction from the whole body exactly when
no received prefix cuts a number**: prefix by prefix, for one way of cutting the
body into chunks, and for all of them. -/
theorem fetchExtract_agrees_iff (d path : String) :
    (∀ k, (∀ v, jsonProbe path ((utf8 d).take k) = some v → get (utf8 d) path = .ok v) ↔
      ¬ CutsNumber (utf8 d) path (wholeChars ((utf8 d).take k))) ∧
    (∀ chunks : List (List UInt8), chunks.flatten = utf8 d →
      (∀ n, ¬ CutsNumber (utf8 d) path (wholeChars (chunks.take n).flatten)) →
      ∀ v, deviceFetchExtract (.ok chunks) (jsonProbe path) = .ok v →
        get (utf8 d) path = .ok v) ∧
    ((∀ chunks : List (List UInt8), chunks.flatten = utf8 d →
      ∀ v, deviceFetchExtract (.ok chunks) (jsonProbe path) = .ok v →
        get (utf8 d) path = .ok v) ↔
      ∀ k, ¬ CutsNumber (utf8 d) path (wholeChars ((utf8 d).take k))) ∧
    ∀ v, defaultFetchExtract (.ok d) (jsonProbe path) = .ok v ↔ get (utf8 d) path = .ok v := by
  have hprobe : ∀ k, (∀ v, jsonProbe path ((utf8 d).take k) = some v →
      get (utf8 d) path = .ok v) ↔ ¬ CutsNumber (utf8 d) path (wholeChars ((utf8 d).take k)) :=
    fun k => probe_agrees_iff (List.take_prefix k _)
  have hchunks : ∀ chunks : List (List UInt8), chunks.flatten = utf8 d →
      (∀ n, ¬ CutsNumber (utf8 d) path (wholeChars (chunks.take n).flatten)) →
      ∀ v, deviceFetchExtract (.ok chunks) (jsonProbe path) = .ok v →
        get (utf8 d) path = .ok v := by
    intro chunks hd hcut v hv
    obtain ⟨n, hn⟩ := probeChunks_eq_some (deviceFetchExtract_eq_ok.mp hv)
    have hpre : (chunks.take n).flatten <+: utf8 d := by
      rw [← hd]
      exact ⟨(chunks.drop n).flatten, by rw [← List.flatten_append, List.take_append_drop]⟩
    exact (probe_agrees_iff hpre).mpr (hcut n) v (by simpa using hn)
  refine ⟨hprobe, hchunks, ⟨fun hall k => ?_, fun hcut chunks hd v hv => ?_⟩,
    fun v => defaultFetchExtract_eq_ok⟩
  · -- cut the body once, at `k`
    refine (hprobe k).mp fun v hv => hall [(utf8 d).take k, (utf8 d).drop k] (by simp) v ?_
    rw [deviceFetchExtract_eq_ok]
    simp [probeChunks, hv]
  · refine hchunks chunks hd (fun n => ?_) v hv
    have hpre : (chunks.take n).flatten <+: utf8 d := by
      rw [← hd]
      exact ⟨(chunks.drop n).flatten, by rw [← List.flatten_append, List.take_append_drop]⟩
    rw [List.prefix_iff_eq_take.mp hpre]
    exact hcut _

/-- The body is cut inside the number 123. -/
theorem fetchExtract_cut_number :
    JsonGrammar.IsJson "\x7b\"a\":123\x7d" ∧
      (["\x7b\"a\":12", "3\x7d"].map utf8).flatten = utf8 "\x7b\"a\":123\x7d" ∧
      deviceFetchExtract (.ok (["\x7b\"a\":12", "3\x7d"].map utf8)) (jsonProbe "a") = .ok (.int 12) ∧
      get (utf8 "\x7b\"a\":123\x7d") "a" = .ok (.int 123) := by
  refine ⟨JsonGrammar.isJson_of_isValue ?_, by decide, by decide +kernel, by decide +kernel⟩
  exact JsonGrammar.isValue_singleton (k := ['a']) (v := ['1', '2', '3']) rfl (.number rfl)

end Json
