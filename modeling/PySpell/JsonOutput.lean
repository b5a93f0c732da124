/-
# JSON written by hand

The crates for the browser write their answers without a JSON library.  `jstr` escapes a
string character by character, every control character among them, and `run_spell` and
`eval_json` put what it gives into an object; so `json::get` finds the result again
(`runSpell_carries`, `evalJson_carries`).  `json_err` and `json_result` escape the
backslash and the quote only: their text is JSON exactly if the message or the URL has no
control character (`jsonErr_iff`, `jsonResult_iff`).
-/
import PySpell.JsonGet
import PySpell.Lib.Hex
import PySpell.Lib.JsonText
import PySpell.Lib.Search
import PySpell.Eval
import PySpell.Parse

open Text JsonGrammar

namespace JsonOutput

/-! ## The emitters -/

/-- The loop body of `jstr`. -/
def jstrChar (c : Char) : List Char :=
  if c = '"' then ['\\', '"']
  else if c = '\\' then ['\\', '\\']
  else if c = '\n' then ['\\', 'n']
  else if c = '\r' then ['\\', 'r']
  else if c = '\t' then ['\\', 't']
  else if c.toNat < 0x20 then
    ['\\', 'u', Hex.digit (c.toNat / 4096 % 16), Hex.digit (c.toNat / 256 % 16),
      Hex.digit (c.toNat / 16 % 16), Hex.digit (c.toNat % 16)]
  else [c]

/-- `jstr`. -/
def jstr (s : String) : String := "\"" ++ String.ofList (s.toList.flatMap jstrChar) ++ "\""

mutual

/-- `render`, and `render_value`. -/
def render : Value → String
  | .int n => toString n.toInt
  | .float x => Binary64.display x
  | .bool b => toString b
  | .str s => s
  | .list l => "[" ++ renderItems l ++ "]"

def renderItems : List Value → String
  | [] => ""
  | [v] => render v
  | v :: vs => render v ++ ", " ++ renderItems vs

end

/-- `Caps`, and `NodeCaps`. -/
structure Caps where
  shown : Option String
  led : Option String
  flash : Bool

/-- What the display and the actuator leave behind of an effect. -/
def Caps.record (caps : Caps) : Event → Caps
  | .show text => { caps with shown := some text }
  | .led on color =>
    { caps with led := some (if on then
        match color with
        | some (r, g, b) =>
          String.ofList ('#' :: Hex.encodeChars [UInt8.ofNat r, UInt8.ofNat g, UInt8.ofNat b])
        | none => "white"
      else "off") }
  | .flash => { caps with flash := true }
  | _ => caps

def Caps.ofEvents (events : List Event) : Caps := events.foldl Caps.record ⟨none, none, false⟩

/-- `jstr`, or `null`. -/
def jstrOrNull (s : Option String) : String := s.elim "null" jstr

/-- The capabilities of a browser: a display and an actuator that always answer, no network
and no deadline; the case mappings and the size of a value are those of the platform. -/
def browser (platform : Host) (env : String → Option Value) : Host :=
  { platform with
    env := fun _ name => env name
    net := none
    display := some fun _ _ => .ok ()
    actuator := some ⟨fun _ _ _ => .ok (), fun _ => .ok ()⟩
    deadline := none }

/-- The readings of `run_spell`. -/
def spellEnv (name : String) : Option Value :=
  if name = "free_heap" then some (.int 200000)
  else if name = "min_free_heap" then some (.int 150000)
  else if name = "uptime_ms" then some (.int 42000)
  else if name = "uptime_s" then some (.int 42)
  else none

/-- The language that `run_spell` is asked for. -/
def spellLang (lang : String) : Lang :=
  if lang.toList.map Char.toLower = "rs".toList ∨ lang.toList.map Char.toLower = "rust".toList then
    .rust
  else .python

/-- A program that is parsed and run, and what it does on the way. -/
def parseAndRun (host : Host) (code : String) (lang : Lang) (maxSteps maxBytes : UInt32) :
    Outcome DslError Value × List Event :=
  match Parse.parse code lang with
  | .err e => (.err e, [])
  | .panic => (.panic, [])
  | .outOfFuel => (.outOfFuel, [])
  | .ok p =>
    let (v, f) := Eval.runWith host p maxSteps maxBytes
    (v, f.events)

/-- The answer of `run_spell` to an error. -/
def spellError (e : DslError) : String := "\x7b\"ok\":false,\"error\":" ++ jstr e.text ++ "\x7d"

/-- The answer of `run_spell` to a value. -/
def spellResult (v : Value) (caps : Caps) : String :=
  "\x7b\"ok\":true,\"result\":" ++ jstr (render v) ++ ",\"show\":" ++ jstrOrNull caps.shown ++
    ",\"led\":" ++ jstrOrNull caps.led ++ ",\"flash\":" ++ toString caps.flash ++ "\x7d"

/-- What `run_spell` evaluates. -/
def spellOutcome (platform : Host) (code lang : String) : Outcome DslError Value × List Event :=
  parseAndRun (browser platform spellEnv) code (spellLang lang) 2000000 262144

/-- `run_spell`; nothing if the evaluation panics. -/
def runSpell (platform : Host) (code lang : String) : Option String :=
  match spellOutcome platform code lang with
  | (.ok v, events) => some (spellResult v (Caps.ofEvents events))
  | (.err e, _) => some (spellError e)
  | _ => none

/-- The result that `eval_json` reports, and what the program did. -/
def evalOutcome (platform : Host) (py : String) : Option (String × List Event) :=
  if py = "" then some ("error: empty program", [])
  else
    match parseAndRun (browser platform fun _ => none) py .python 1000000 131072 with
    | (.ok v, events) => some (render v, events)
    | (.err e, events) => some ("error: " ++ e.text, events)
    | _ => none

/-- The answer of `eval_json`. -/
def evalReport (py result : String) (caps : Caps) : String :=
  "\x7b\"py\":" ++ jstr py ++ ",\"result\":" ++ jstr result ++ ",\"show\":" ++
    jstrOrNull caps.shown ++ ",\"led\":" ++ jstrOrNull caps.led ++ ",\"flash\":" ++
    toString caps.flash ++ "\x7d"

/-- `eval_json`; nothing if the evaluation panics. -/
def evalJson (platform : Host) (py : String) : Option String :=
  (evalOutcome platform (trim py)).map fun r => evalReport (trim py) r.1 (Caps.ofEvents r.2)

/-- `s.replace(c, new)` on characters. -/
def replaceChar (c : Char) (new : List Char) (l : List Char) : List Char :=
  l.flatMap fun d => if d = c then new else [d]

/-- `replace('\\', "\\\\").replace('"', "\\\"")`. -/
def escapeTwo (s : String) : String :=
  String.ofList (replaceChar '"' ['\\', '"'] (replaceChar '\\' ['\\', '\\'] s.toList))

/-! ### The emitters of the devices -/

/-- `json_err`. -/
def jsonErr (msg : String) : String := "\x7b\"ok\":false,\"error\":\"" ++ escapeTwo msg ++ "\"\x7d"

/-- `json_result`. -/
def jsonResult (status : UInt16) (authorized : Bool) (authUrl ip : Option String) : String :=
  "\x7b\"ok\":true,\"status\":" ++ toString status.toNat ++ ",\"authorized\":" ++
    toString authorized ++ ",\"authUrl\":" ++
    authUrl.elim "null" (fun u => "\"" ++ escapeTwo u ++ "\"") ++ ",\"ip\":" ++
    ip.elim "null" (fun i => "\"" ++ i ++ "\"") ++ "\x7d"

/-- `scan_tailscale_ip`. -/
def scanTailscaleIp (raw : List UInt8) : Option String := do
  let pos ← Search.position (utf8 "\"100.") raw
  let ip := (raw.drop (pos + 1)).takeWhile fun b => b ≠ Json.ch '/' && b ≠ Json.ch '"'
  let s ← (fromUtf8 ip).toOption
  if 7 ≤ (utf8 s).length ∧ s.toList.all (fun c => c.isDigit || c = '.') then some s else none

/-! ## Strings -/

/-- A digit of an escape. -/
def hexDigit (n : ℕ) : Hex :=
  ⟨Hex.digit (n % 16), by
    have hdigit : ∀ k < 16, isHex (Hex.digit k) = true := by decide
    exact hdigit _ (Nat.mod_lt n (by decide))⟩

theorem val_hexDigit (n : ℕ) : (hexDigit n).val = n % 16 := by
  have hdigit : ∀ k < 16, ∀ h : isHex (Hex.digit k) = true,
      JsonGrammar.Hex.val ⟨Hex.digit k, h⟩ = k := by decide
  exact hdigit _ (Nat.mod_lt n (by decide)) _

/-- **Every character has a piece** that `jstr` writes for it. -/
theorem jstrChar_piece (c : Char) :
    ∃ p : Piece, p.text = jstrChar c ∧ p.char = c ∧ p.Whole := by
  have hshort : ∀ (e : Short) n, (Piece.short e).code = some n → n < 0xd800 :=
    fun e n hn => by cases hn
  unfold jstrChar
  split_ifs with hquote hslash hn hr ht hlow
  · exact ⟨.short .quote, rfl, hquote.symm, hshort _⟩
  · exact ⟨.short .backslash, rfl, hslash.symm, hshort _⟩
  · exact ⟨.short .n, rfl, hn.symm, hshort _⟩
  · exact ⟨.short .r, rfl, hr.symm, hshort _⟩
  · exact ⟨.short .t, rfl, ht.symm, hshort _⟩
  · refine ⟨.unicode (hexDigit (c.toNat / 4096)) (hexDigit (c.toNat / 256))
      (hexDigit (c.toNat / 16)) (hexDigit c.toNat), rfl, ?_, ?_⟩
    · show charOfCode _ = c
      rw [val_hexDigit, val_hexDigit, val_hexDigit, val_hexDigit]
      have hcode : ((c.toNat / 4096 % 16 * 16 + c.toNat / 256 % 16) * 16 + c.toNat / 16 % 16) * 16 +
          c.toNat % 16 = c.toNat := by omega
      rw [hcode]
      exact (if_pos c.valid).trans (Char.ofNat_toNat c)
    · intro n hcode
      simp only [Piece.code, val_hexDigit, Option.some.injEq] at hcode
      omega
  · exact ⟨.raw ⟨c, hquote, hslash, by omega⟩, rfl, rfl, fun n hn => by cases hn⟩

theorem jstr_toList (s : String) : (jstr s).toList = '"' :: s.toList.flatMap jstrChar ++ ['"'] := by
  simp [jstr]

/-- The text is one JSON string, its pieces say `s`, and `parse_string` reads `s` from it
wherever it stands and ends behind it. -/
def IsStringOf (text s : String) : Prop :=
  (∃ ps, text.toList = '"' :: encode ps ++ ['"'] ∧ String.ofList (decode ps) = s) ∧
    ∀ pre post : List UInt8, Json.parseString (pre ++ utf8 text ++ post) pre.length =
      .ok (s, pre.length + (utf8 text).length)

/-- **`jstr` writes one JSON string**, and `parse_string` gives the string back. -/
theorem jstr_isStringOf (s : String) : IsStringOf (jstr s) s := by
  obtain ⟨ps, hencode, hdecode, hpair⟩ := exists_pieces fun c (_ : c ∈ s.toList) => jstrChar_piece c
  have htext : (jstr s).toList = '"' :: encode ps ++ ['"'] := by rw [jstr_toList, hencode]
  have hs : String.ofList (decode ps) = s := by rw [hdecode, String.ofList_toList]
  refine ⟨⟨ps, htext, hs⟩, fun pre post => ?_⟩
  have hbytes : utf8 (jstr s) = Json.quoted ps := by
    rw [utf8, htext]
    rfl
  rw [hbytes, ((Json.decodesFully_iff pre ps post).mpr hpair).1, hs]

theorem writes_jstr (s : String) : Writes Json.FitsI64 (jstr s).toList (.string s) := by
  have h := writes_string (N := Json.FitsI64) fun c (_ : c ∈ s.toList) => jstrChar_piece c
  rw [String.ofList_toList] at h
  rw [jstr_toList]
  exact h

/-! ## Objects -/

/-- The text is a JSON object whose member `name` is `t`. -/
structure Says (text name : String) (t : Tree) : Prop where
  isJson : IsJson text
  member : ∃ l, (∃ d, Json.IsDocument d text ∧ d.tree = .object l) ∧ l.lookup name = some t

/-- The member is a string, and `json::get` returns it. -/
structure Carries (text name s : String) : Prop extends Says text name (.string s) where
  get_eq : Json.get (utf8 text) name = .ok (.str s)

theorem says_of_writes {text name : String} {l : List (String × Tree)} {t : Tree}
    (h : Writes Json.FitsI64 text.toList (.object l)) (hname : l.lookup name = some t) :
    Says text name t := by
  obtain ⟨d, htext, htree, -⟩ := h
  have hdoc : Json.IsDocument d text := ⟨⟨[], rfl⟩, ⟨[], rfl⟩, by simp [htext]⟩
  exact ⟨isJson_of_isValue (htext ▸ d.isValue_text), l, ⟨d, hdoc, htree⟩, hname⟩

/-- **An object that is written down carries its members.** -/
theorem carries_of_writes {text name s : String} {l : List (String × Tree)}
    (h : Writes Json.FitsI64 text.toList (.object l)) (hname : l.lookup name = some (.string s))
    (hpath : Json.pathComps name = [name]) : Carries text name s := by
  refine ⟨says_of_writes h hname, ?_⟩
  obtain ⟨d, htext, htree, hevery⟩ := h
  have hdoc : Json.IsDocument d text := ⟨⟨[], rfl⟩, ⟨[], rfl⟩, by simp [htext]⟩
  have hget := Json.get_document hdoc hevery name
  have hfollow : d.tree.follow parseUsize [name] = some (.string s) := by
    rw [htree]
    show (l.lookup name).bind some = _
    rw [hname]
    rfl
  rw [hpath, hfollow] at hget
  cases hres : Json.get (utf8 text) name with
  | error e =>
    rw [hres] at hget
    cases hget
  | ok v =>
    rw [hres] at hget
    rw [Option.some_inj.mp hget]

/-- The text of an object as its members. -/
theorem object_ok_error (x : String) : ("\x7b\"ok\":false,\"error\":" ++ x ++ "\x7d").toList =
    '\x7b' :: [','].intercalate [memberText ("ok", "false".toList), memberText ("error", x.toList)] ++
      ['\x7d'] := by
  simp only [String.toList_append, List.intercalate_cons_cons, List.intercalate_singleton,
    memberText, String.reduceToList, List.cons_append, List.nil_append]

theorem object_error (x : List Char) :
    "\x7b\"ok\":false,\"error\":\"".toList ++ (x ++ "\"\x7d".toList) =
    '\x7b' :: [','].intercalate [memberText ("ok", "false".toList),
      memberText ("error", '"' :: x ++ ['"'])] ++ ['\x7d'] := by
  simp only [List.intercalate_cons_cons, List.intercalate_singleton, memberText,
    String.reduceToList, List.cons_append, List.nil_append, List.append_assoc]

theorem object_result (x b y z : String) :
    ("\x7b\"ok\":true,\"status\":" ++ x ++ ",\"authorized\":" ++ b ++ ",\"authUrl\":" ++ y ++
      ",\"ip\":" ++ z ++ "\x7d").toList =
    '\x7b' :: [','].intercalate [memberText ("ok", "true".toList), memberText ("status", x.toList),
      memberText ("authorized", b.toList), memberText ("authUrl", y.toList),
      memberText ("ip", z.toList)] ++ ['\x7d'] := by
  simp only [String.toList_append, List.intercalate_cons_cons, List.intercalate_singleton,
    memberText, String.reduceToList, List.cons_append, List.nil_append, List.append_assoc]

theorem object_spell (x y z b : String) :
    ("\x7b\"ok\":true,\"result\":" ++ x ++ ",\"show\":" ++ y ++ ",\"led\":" ++ z ++
      ",\"flash\":" ++ b ++ "\x7d").toList =
    '\x7b' :: [','].intercalate [memberText ("ok", "true".toList), memberText ("result", x.toList),
      memberText ("show", y.toList), memberText ("led", z.toList), memberText ("flash", b.toList)] ++
      ['\x7d'] := by
  simp only [String.toList_append, List.intercalate_cons_cons, List.intercalate_singleton,
    memberText, String.reduceToList, List.cons_append, List.nil_append, List.append_assoc]

theorem object_eval (w x y z b : String) :
    ("\x7b\"py\":" ++ w ++ ",\"result\":" ++ x ++ ",\"show\":" ++ y ++ ",\"led\":" ++ z ++
      ",\"flash\":" ++ b ++ "\x7d").toList =
    '\x7b' :: [','].intercalate [memberText ("py", w.toList), memberText ("result", x.toList),
      memberText ("show", y.toList), memberText ("led", z.toList), memberText ("flash", b.toList)] ++
      ['\x7d'] := by
  simp only [String.toList_append, List.intercalate_cons_cons, List.intercalate_singleton,
    memberText, String.reduceToList, List.cons_append, List.nil_append, List.append_assoc]

/-! ### The reports -/

theorem writes_jstrOrNull (s : Option String) :
    Writes Json.FitsI64 (jstrOrNull s).toList (s.elim .null .string) := by
  cases s with
  | none => exact writes_null
  | some s => exact writes_jstr s

/-- The members of the objects that are written here stand for themselves. -/
theorem isRaw_names : ∀ name ∈ ["ok", "error", "result", "show", "led", "flash", "py", "status",
    "authorized", "authUrl", "ip"], ∀ c ∈ name.toList, IsRaw c := by
  intro name hname
  refine List.forall_iff_forall_mem.mp ?_
  revert name
  decide +kernel

theorem writes_spellError (e : DslError) : Writes Json.FitsI64 (spellError e).toList
    (.object [("ok", .bool false), ("error", .string e.text)]) := by
  have h := writes_object (N := Json.FitsI64) [(("ok", "false".toList), .bool false),
    (("error", (jstr e.text).toList), .string e.text)] (List.cons_ne_nil _ _)
  dsimp only [List.Forall] at h
  unfold spellError
  rw [object_ok_error]
  exact h ⟨isRaw_names _ (by simp), isRaw_names _ (by simp)⟩ ⟨writes_false, writes_jstr e.text⟩

theorem writes_spellResult (v : Value) (caps : Caps) :
    Writes Json.FitsI64 (spellResult v caps).toList
      (.object [("ok", .bool true), ("result", .string (render v)),
        ("show", caps.shown.elim .null .string), ("led", caps.led.elim .null .string),
        ("flash", .bool caps.flash)]) := by
  have h := writes_object (N := Json.FitsI64) [(("ok", "true".toList), .bool true),
    (("result", (jstr (render v)).toList), .string (render v)),
    (("show", (jstrOrNull caps.shown).toList), caps.shown.elim .null .string),
    (("led", (jstrOrNull caps.led).toList), caps.led.elim .null .string),
    (("flash", (toString caps.flash).toList), .bool caps.flash)] (List.cons_ne_nil _ _)
  dsimp only [List.Forall] at h
  unfold spellResult
  rw [object_spell]
  refine h ⟨?_, ?_, ?_, ?_, ?_⟩ ⟨writes_true, writes_jstr _, writes_jstrOrNull _,
    writes_jstrOrNull _, writes_bool _⟩
  all_goals exact isRaw_names _ (by simp)

theorem writes_evalReport (py result : String) (caps : Caps) :
    Writes Json.FitsI64 (evalReport py result caps).toList
      (.object [("py", .string py), ("result", .string result),
        ("show", caps.shown.elim .null .string), ("led", caps.led.elim .null .string),
        ("flash", .bool caps.flash)]) := by
  have h := writes_object (N := Json.FitsI64) [(("py", (jstr py).toList), .string py),
    (("result", (jstr result).toList), .string result),
    (("show", (jstrOrNull caps.shown).toList), caps.shown.elim .null .string),
    (("led", (jstrOrNull caps.led).toList), caps.led.elim .null .string),
    (("flash", (toString caps.flash).toList), .bool caps.flash)] (List.cons_ne_nil _ _)
  dsimp only [List.Forall] at h
  unfold evalReport
  rw [object_eval]
  refine h ⟨?_, ?_, ?_, ?_, ?_⟩ ⟨writes_jstr _, writes_jstr _, writes_jstrOrNull _,
    writes_jstrOrNull _, writes_bool _⟩
  all_goals exact isRaw_names _ (by simp)

/-- **The answers of `run_spell`** carry the rendered result or the error. -/
theorem runSpell_carries {platform : Host} {code lang out : String}
    (h : runSpell platform code lang = some out) :
    match (spellOutcome platform code lang).1 with
    | .ok v => Carries out "result" (render v)
    | .err e => Carries out "error" e.text
    | _ => False := by
  unfold runSpell at h
  cases hout : spellOutcome platform code lang with
  | mk v events =>
    rw [hout] at h
    cases v with
    | ok v =>
      obtain rfl := Option.some_inj.mp h
      exact carries_of_writes (writes_spellResult v (Caps.ofEvents events)) rfl (by decide)
    | err e =>
      obtain rfl := Option.some_inj.mp h
      exact carries_of_writes (writes_spellError e) rfl (by decide)
    | panic => cases h
    | outOfFuel => cases h

/-- **The answers of `eval_json`** carry the result. -/
theorem evalJson_carries {platform : Host} {py out : String} (h : evalJson platform py = some out) :
    ∃ result events, evalOutcome platform (trim py) = some (result, events) ∧
      Carries out "result" result := by
  obtain ⟨⟨result, events⟩, hout, rfl⟩ := Option.map_eq_some_iff.mp h
  exact ⟨result, events, hout,
    carries_of_writes (writes_evalReport (trim py) result (Caps.ofEvents events)) rfl (by decide)⟩

/-! ## Two escapes only -/

/-- No control character. -/
def NoControl (s : String) : Prop := ∀ c ∈ s.toList, 0x20 ≤ c.toNat

instance (s : String) : Decidable (NoControl s) :=
  List.decidableBAll (fun c : Char => 0x20 ≤ c.toNat) s.toList

theorem noControl_cons {c : Char} {l : List Char} :
    NoControl (String.ofList (c :: l)) ↔ 0x20 ≤ c.toNat ∧ NoControl (String.ofList l) := by
  rw [NoControl, String.toList_ofList, List.forall_mem_cons, NoControl, String.toList_ofList]

/-- What the two replacements make of a character. -/
def escapeChar (c : Char) : List Char :=
  if c = '\\' then ['\\', '\\'] else if c = '"' then ['\\', '"'] else [c]

theorem escapeTwo_toList (s : String) : (escapeTwo s).toList = s.toList.flatMap escapeChar := by
  rw [escapeTwo, String.toList_ofList, replaceChar, replaceChar, List.flatMap_assoc]
  congr 1
  funext c
  unfold escapeChar
  split_ifs with hslash hquote
  · rfl
  · subst hquote
    rfl
  · rw [List.flatMap_singleton, if_neg hquote]

theorem escapeChar_piece {c : Char} (hc : 0x20 ≤ c.toNat) :
    ∃ p : Piece, p.text = escapeChar c ∧ p.char = c ∧ p.Whole := by
  unfold escapeChar
  split_ifs with hslash hquote
  · exact ⟨.short .backslash, rfl, hslash.symm, fun n hn => by cases hn⟩
  · exact ⟨.short .quote, rfl, hquote.symm, fun n hn => by cases hn⟩
  · exact ⟨.raw ⟨c, hquote, hslash, hc⟩, rfl, rfl, fun n hn => by cases hn⟩

theorem writes_escapeTwo {s : String} (h : NoControl s) :
    Writes Json.FitsI64 ('"' :: (escapeTwo s).toList ++ ['"']) (.string s) := by
  have hwrites := writes_string (N := Json.FitsI64) fun c hc => escapeChar_piece (h c hc)
  rw [String.ofList_toList] at hwrites
  rw [escapeTwo_toList]
  exact hwrites

/-- **A reader stays inside of the string** or meets a control character. -/
theorem scan_escapeTwo (s : String) :
    scan .inside (escapeTwo s).toList = if NoControl s then some .inside else none := by
  have hlist : ∀ l : List Char, scan .inside (l.flatMap escapeChar) =
      if NoControl (String.ofList l) then some .inside else none := by
    intro l
    induction l with
    | nil => exact (if_pos fun c hc => by cases hc).symm
    | cons c l ih =>
      rw [List.flatMap_cons, scan_append, if_congr noControl_cons rfl rfl]
      by_cases hc : 0x20 ≤ c.toNat
      · obtain ⟨p, htext, -, -⟩ := escapeChar_piece hc
        have hpiece : scan .inside (escapeChar c) = some .inside := by
          rw [← htext, ← List.append_nil p.text, scan_piece]
          rfl
        rw [hpiece, Option.bind_some, ih]
        simp [hc]
      · have hctrl : scan .inside (escapeChar c) = none := by
          have hquote : c ≠ '"' := by
            rintro rfl
            exact hc (by decide)
          have hslash : c ≠ '\\' := by
            rintro rfl
            exact hc (by decide)
          rw [escapeChar, if_neg hslash, if_neg hquote]
          show (Spot.next .inside c).bind some = none
          rw [Spot.next, if_neg hquote, if_neg hslash, if_pos (by omega)]
          rfl
        rw [hctrl, if_neg fun h => hc h.1]
        rfl
  rw [escapeTwo_toList, hlist, String.ofList_toList]

/-- A string that is escaped so stands inside of a JSON text only without control
characters. -/
theorem noControl_of_isJson {text s : String} {pre post : List Char}
    (htext : text.toList = pre ++ ((escapeTwo s).toList ++ post))
    (hpre : scan .outside pre = some .inside) (h : IsJson text) : NoControl s := by
  have hscan := scan_of_isJson h
  rw [htext, scan_append_of hpre, scan_append, scan_escapeTwo] at hscan
  by_contra hcontrol
  rw [if_neg hcontrol] at hscan
  cases hscan

/-- **`json_err` writes JSON exactly for messages without control characters.** -/
theorem jsonErr_iff (msg : String) : Carries (jsonErr msg) "error" msg ↔ NoControl msg := by
  have htext : (jsonErr msg).toList = "\x7b\"ok\":false,\"error\":\"".toList ++
      ((escapeTwo msg).toList ++ "\"\x7d".toList) := by
    unfold jsonErr
    rw [String.toList_append, String.toList_append, List.append_assoc]
  constructor
  · exact fun h => noControl_of_isJson htext (by decide) h.isJson
  · intro h
    have hmembers := writes_object (N := Json.FitsI64) [(("ok", "false".toList), .bool false),
      (("error", '"' :: (escapeTwo msg).toList ++ ['"']), .string msg)] (List.cons_ne_nil _ _)
    dsimp only [List.Forall] at hmembers
    have hwrites : Writes Json.FitsI64 (jsonErr msg).toList
        (.object [("ok", .bool false), ("error", .string msg)]) := by
      rw [htext, object_error]
      exact hmembers ⟨isRaw_names _ (by simp), isRaw_names _ (by simp)⟩
        ⟨writes_false, writes_escapeTwo h⟩
    exact carries_of_writes hwrites rfl (by decide)

/-! ## The result of a registration -/

/-- An address that was found is digits and points. -/
theorem isRaw_of_scanTailscaleIp (raw : List UInt8) {ip : String}
    (h : scanTailscaleIp raw = some ip) : ∀ c ∈ ip.toList, IsRaw c := by
  simp only [scanTailscaleIp, Option.bind_eq_bind] at h
  obtain ⟨pos, -, h⟩ := Option.bind_eq_some_iff.mp h
  obtain ⟨s, -, h⟩ := Option.bind_eq_some_iff.mp h
  split_ifs at h with hip
  obtain rfl := Option.some_inj.mp h
  intro c hc
  have hchar := List.all_eq_true.mp hip.2 c hc
  rw [Bool.or_eq_true, decide_eq_true_iff] at hchar
  rcases hchar with hdigit | rfl
  · have hbounds := isDigit_bounds hdigit
    exact ⟨ne_of_isDigit hdigit rfl, ne_of_isDigit hdigit rfl, by omega⟩
  · decide

theorem writes_ip {ip : Option String} (h : ∀ i, ip = some i → ∀ c ∈ i.toList, IsRaw c) :
    Writes Json.FitsI64 (ip.elim "null" fun i => "\"" ++ i ++ "\"").toList
      (ip.elim .null .string) := by
  cases ip with
  | none => exact writes_null
  | some i =>
    obtain ⟨ps, hencode, hdecode, hpair⟩ := exists_raw (h i rfl)
    refine ⟨.string ps, ?_, ?_, hpair⟩
    · rw [Doc.text, hencode]
      simp
    · rw [Doc.tree, hdecode, String.ofList_toList]
      rfl

theorem writes_authUrl {authUrl : Option String} (h : ∀ u, authUrl = some u → NoControl u) :
    Writes Json.FitsI64 (authUrl.elim "null" fun u => "\"" ++ escapeTwo u ++ "\"").toList
      (authUrl.elim .null .string) := by
  cases authUrl with
  | none => exact writes_null
  | some u =>
    have hwrites := writes_escapeTwo (h u rfl)
    have htext : ("\"" ++ escapeTwo u ++ "\"").toList = '"' :: (escapeTwo u).toList ++ ['"'] := by
      simp
    rw [← htext] at hwrites
    exact hwrites

theorem fitsI64_ofNat {n : ℕ} (h : n < 2 ^ 16) : Json.FitsI64 (Number.ofNat n) := by
  intro _
  have hval : digitsVal (Nat.toDigits 10 n) = n := by
    have hfold : digitsVal (Nat.toDigits 10 n) = Nat.ofDigitChars 10 (Nat.toDigits 10 n) 0 := by
      rw [Nat.ofDigitChars_eq_foldl, digitsVal]
      congr 1
      funext a c
      rw [Nat.mul_comm]
    rw [hfold, Nat.ofDigitChars_ten_toDigits]
  have hint : Json.intValue (Number.ofNat n) = n := by
    show ((digitsVal (Nat.toDigits 10 n) : ℕ) : ℤ) = n
    rw [hval]
  rw [hint]
  omega

/-- What the object that `json_result` writes says. -/
def resultMembers (status : UInt16) (authorized : Bool) (authUrl ip : Option String) :
    List (String × Tree) :=
  [("ok", .bool true), ("status", .number (Number.ofNat status.toNat)),
    ("authorized", .bool authorized), ("authUrl", authUrl.elim .null .string),
    ("ip", ip.elim .null .string)]

theorem writes_jsonResult (status : UInt16) (authorized : Bool) {authUrl ip : Option String}
    (hurl : ∀ u, authUrl = some u → NoControl u)
    (hip : ∀ i, ip = some i → ∀ c ∈ i.toList, IsRaw c) :
    Writes Json.FitsI64 (jsonResult status authorized authUrl ip).toList
      (.object (resultMembers status authorized authUrl ip)) := by
  have hmembers := writes_object (N := Json.FitsI64) [(("ok", "true".toList), .bool true),
    (("status", (toString status.toNat).toList), .number (Number.ofNat status.toNat)),
    (("authorized", (toString authorized).toList), .bool authorized),
    (("authUrl", (authUrl.elim "null" fun u => "\"" ++ escapeTwo u ++ "\"").toList),
      authUrl.elim .null .string),
    (("ip", (ip.elim "null" fun i => "\"" ++ i ++ "\"").toList), ip.elim .null .string)]
    (List.cons_ne_nil _ _)
  dsimp only [List.Forall] at hmembers
  have hstatus : Writes Json.FitsI64 (toString status.toNat).toList
      (.number (Number.ofNat status.toNat)) := by
    rw [← Number.text_ofNat]
    exact writes_number (fitsI64_ofNat status.toNat_lt)
  unfold jsonResult
  rw [object_result]
  refine hmembers ⟨?_, ?_, ?_, ?_, ?_⟩ ⟨writes_true, hstatus, writes_bool authorized,
    writes_authUrl hurl, writes_ip hip⟩
  all_goals exact isRaw_names _ (by simp)

/-- What `json_result` writes before a URL. -/
def resultFront (status : UInt16) (authorized : Bool) : List Char :=
  "\x7b\"ok\":true,\"status\":".toList ++ ((toString status.toNat).toList ++
    (",\"authorized\":".toList ++ ((toString authorized).toList ++ ",\"authUrl\":\"".toList)))

theorem jsonResult_text (status : UInt16) (authorized : Bool) (u : String) (ip : Option String) :
    (jsonResult status authorized (some u) ip).toList =
      resultFront status authorized ++ ((escapeTwo u).toList ++
        ("\",\"ip\":".toList ++ ((ip.elim "null" fun i => "\"" ++ i ++ "\"").toList ++
          "\x7d".toList))) := by
  unfold jsonResult resultFront
  generalize (ip.elim "null" fun i => "\"" ++ i ++ "\"") = z
  simp only [Option.elim_some, String.toList_append, String.reduceToList, List.cons_append,
    List.nil_append, List.append_assoc]

/-- A reader is then inside of a string. -/
theorem scan_resultFront (status : UInt16) (authorized : Bool) :
    scan .outside (resultFront status authorized) = some .inside := by
  have hdigits : '"' ∉ (toString status.toNat).toList := by
    rw [← Number.text_ofNat]
    exact quote_not_mem_number _
  have hbool : '"' ∉ (toString authorized).toList := by cases authorized <;> decide
  have hstart : scan .outside "\x7b\"ok\":true,\"status\":".toList = some .outside := by decide
  have hmiddle : scan .outside ",\"authorized\":".toList = some .outside := by decide
  have hend : scan .outside ",\"authUrl\":\"".toList = some .inside := by decide
  unfold resultFront
  rw [scan_append_of hstart, scan_plain hdigits, scan_append_of hmiddle, scan_plain hbool, hend]

/-- **`json_result` writes JSON exactly for URLs without control characters**; the address
is one that was found. -/
theorem jsonResult_iff (status : UInt16) (authorized : Bool) (authUrl : Option String)
    (raw : List UInt8) :
    (Says (jsonResult status authorized authUrl (scanTailscaleIp raw)) "authUrl"
        (authUrl.elim .null .string) ∧
      ∀ u, authUrl = some u →
        Carries (jsonResult status authorized authUrl (scanTailscaleIp raw)) "authUrl" u) ↔
    ∀ u, authUrl = some u → NoControl u := by
  constructor
  · rintro ⟨hsaid, -⟩ u rfl
    exact noControl_of_isJson (jsonResult_text status authorized u _)
      (scan_resultFront status authorized) hsaid.isJson
  · intro hurl
    have hwrites := writes_jsonResult status authorized hurl fun i hi =>
      isRaw_of_scanTailscaleIp raw hi
    refine ⟨says_of_writes hwrites rfl, ?_⟩
    rintro u rfl
    exact carries_of_writes hwrites rfl (by decide)

/-! ## All emitters -/

/-- **What the emitters write.**  `jstr` writes one JSON string for every string, which
`parse_string` reads back; so the answers of `run_spell` and `eval_json` carry the rendered
result.  What `json_err` and `json_result` write carries the message and the URL exactly if
these have no control character. -/
theorem emitters_valid (platform : Host) :
    (∀ s, IsStringOf (jstr s) s) ∧
    (∀ code lang out, runSpell platform code lang = some out →
      match (spellOutcome platform code lang).1 with
      | .ok v => Carries out "result" (render v)
      | .err e => Carries out "error" e.text
      | _ => False) ∧
    (∀ py out, evalJson platform py = some out → ∃ result events,
      evalOutcome platform (trim py) = some (result, events) ∧ Carries out "result" result) ∧
    (∀ msg, Carries (jsonErr msg) "error" msg ↔ NoControl msg) ∧
    ∀ status authorized authUrl raw,
      (Says (jsonResult status authorized authUrl (scanTailscaleIp raw)) "authUrl"
          (authUrl.elim .null .string) ∧
        ∀ u, authUrl = some u →
          Carries (jsonResult status authorized authUrl (scanTailscaleIp raw)) "authUrl" u) ↔
      ∀ u, authUrl = some u → NoControl u :=
  ⟨jstr_isStringOf, fun _ _ _ h => runSpell_carries h, fun _ _ h => evalJson_carries h,
    jsonErr_iff, jsonResult_iff⟩

/-- **A message of two lines** breaks the text: the newline stands in the string as it is. -/
theorem jsonErr_two_lines : ¬ ∀ msg : String, Carries (jsonErr msg) "error" msg := by
  intro h
  have hcontrol := (jsonErr_iff "WebSocket::new: JsValue(SyntaxError: \n)").mp (h _)
  exact absurd (hcontrol '\n' (by decide)) (by decide)

end JsonOutput
