/-
# The PySpell routes

`pyspell_web.rs`: the handler that both HTTP servers call.  A program reaches `eval_program`
on three ways, as the body of a `POST /run`, as the parameter `code` of any other `/run`,
and as an argument of the tool `run_pyspell` of `/mcp`.

What a request does to the device is kept in order (`Act`), an evaluation with its program
and its host, so that one can say what was evaluated with which capabilities
(`mem_evalProgram`).  The clock, the heap, the assets in flash and the model worker belong to
the device, and `serde_json` reads and writes its own values.
-/
import PySpell.Eval
import PySpell.Http
import PySpell.Parse

open Text Http StateOutcome

/-! ## JSON values -/

/-- `serde_json::Value`. -/
inductive JsonValue where
  | null
  | bool (b : Bool)
  | int (n : ℤ)
  | float (x : Binary64)
  | str (s : String)
  | array (items : List JsonValue)
  | object (members : List (String × JsonValue))

namespace JsonValue

/-- `get` at a key. -/
def get (key : String) : JsonValue → Option JsonValue
  | object members => members.lookup key
  | _ => none

def asStr : JsonValue → Option String
  | str s => some s
  | _ => none

/-- `as_i64`; a number that is read is at least `i64::MIN`. -/
def asI64 : JsonValue → Option Int64
  | int n => if n < 2 ^ 63 then some (Int64.ofInt n) else none
  | _ => none

def isNull : JsonValue → Bool
  | null => true
  | _ => false

end JsonValue

/-- `serde_json::from_slice` and `to_string`. -/
structure SerdeJson where
  fromSlice : List UInt8 → Option JsonValue
  toString : JsonValue → String

namespace PyspellWeb

/-! ## The device -/

/-- What the handler finds on the device while it serves a request. -/
structure Device where
  /-- `esp_get_free_heap_size` when a job asks to be admitted. -/
  freeHeap : UInt32
  /-- `esp_get_free_heap_size` and the other readings of `device_env`. -/
  envFreeHeap : UInt32
  envMinFreeHeap : UInt32
  envTimeUs : ℕ
  /-- `esp_timer_get_time` when the deadline is set, and whenever it is polled. -/
  startUs : ℕ
  nowUs : List Event → ℕ
  net : Net
  display : List Event → String → Except DslError Unit
  actuator : Actuator
  toUppercase : String → String
  toLowercase : String → String
  sizeOfValue : ℕ
  serde : SerdeJson
  /-- `PAGE`, `WASM_JS` and `WASM_BG`. -/
  page : List UInt8
  wasmJs : List UInt8
  wasmBg : List UInt8
  /-- The sources of `model_host`. -/
  modelSource : Option BodySource
  tokenizerSource : Option BodySource
  wordmetaSource : Option BodySource
  embeddingsSource : Option BodySource
  /-- What `device_llm::start` and `device_llm::poll` answer. -/
  llmStart : String → String
  llmPoll : String

/-- A call of `eval::run_with`. -/
structure Evaluation where
  program : Program
  host : Host
  maxSteps : UInt32
  maxBytes : UInt32

/-- What the handler does beside answering. -/
inductive Act where
  | evaluate (e : Evaluation)
  /-- `jobcount::record`. -/
  | record
  /-- `display::set_revert_seconds`. -/
  | setRevert (secs : ℕ)
  /-- `device_llm::start`. -/
  | startLlm (prompt : String)

/-- The handler does things in order, and may panic. -/
abbrev Web (α : Type) := StateOutcome (List Act) Empty α

def act (a : Act) : Web Unit := .modify fun acts => acts ++ [a]

/-! ## Programs -/

/-- `MAX_CODE`. -/
def maxCode : ℕ := 1024

/-- `MEM_MARGIN`. -/
def memMargin : ℕ := 40 * 1024

/-- `i64::clamp`. -/
def clamp (x lo hi : Int64) : Int64 := if x < lo then lo else if hi < x then hi else x

/-- `device_env`. -/
def deviceEnv (dev : Device) : List (String × Value) :=
  [("free_heap", .int (Int64.ofNat dev.envFreeHeap.toNat)),
    ("min_free_heap", .int (Int64.ofNat dev.envMinFreeHeap.toNat)),
    ("uptime_ms", .int (Int64.ofNat (dev.envTimeUs / 1000))),
    ("uptime_s", .int (Int64.ofNat (dev.envTimeUs / 1000000)))]

/-- The environment and the capabilities that a program gets. -/
def jobHost (dev : Device) (timeoutS : Int64) : Host where
  env := fun _ name => (deviceEnv dev).lookup name
  net := some dev.net
  display := some dev.display
  actuator := some dev.actuator
  deadline := some fun events =>
    decide ((clamp timeoutS 1 60).toInt * 1000000 < (dev.nowUs events : ℤ) - dev.startUs)
  toUppercase := dev.toUppercase
  toLowercase := dev.toLowercase
  sizeOfValue := dev.sizeOfValue

/-- What the handler shows of an evaluation. -/
def shown : Outcome DslError Value → Outcome Empty String
  | .ok v => .ok (Eval.toStr v)
  | .err e => .ok ("error: " ++ e.text)
  | .panic => .panic
  | .outOfFuel => .outOfFuel

/-- `eval::run_with`, and what is shown of it. -/
def evaluate (e : Evaluation) : Web String := do
  act (.evaluate e)
  lift (shown (Eval.runWith e.host e.program e.maxSteps e.maxBytes).1)

/-- The budget of a job, in bytes. -/
def jobBytes (maxBytesReq : Int64) : UInt32 :=
  UInt32.ofNat (clamp maxBytesReq 1024 262144).toInt.toNat

/-- `eval_program`. -/
def evalProgram (dev : Device) (code : String) (lang : Lang) (timeoutS maxBytesReq : Int64) :
    Web String :=
  if code = "" then pure "error: empty program"
  else if maxCode < (utf8 code).length then pure "error: program too long"
  else
    let maxBytes := jobBytes maxBytesReq
    let free := dev.freeHeap
    if free.toNat < min (maxBytes.toNat + memMargin) (2 ^ 32 - 1) then
      pure (s!"error: insufficient memory: job budget {maxBytes} B + ~{memMargin} B overhead > " ++
        s!"{free} B free (lower mem= or retry)")
    else
      match Parse.parse code lang with
      | .ok program => do
        let out ← evaluate ⟨program, jobHost dev timeoutS, 2000000, maxBytes⟩
        act .record
        pure out
      | .err e => pure ("error: " ++ e.text)
      | .panic => lift .panic
      | .outOfFuel => lift .outOfFuel

/-! ## `/run` -/

/-- `eq_ignore_ascii_case`. -/
def eqIgnoreAsciiCase (s t : String) : Bool := s.toList.map Char.toLower = t.toList.map Char.toLower

/-- The language of a name. -/
def langOf (name : String) : Lang := if name = "rs" ∨ name = "rust" then .rust else .python

/-- The program of a request for `/run`. -/
def runCode (method query : String) (body : List UInt8) : String :=
  if eqIgnoreAsciiCase method "POST" then trim (fromUtf8Lossy body)
  else urlDecode (queryGet query "code")

/-- `run`. -/
def run (dev : Device) (method query : String) (body : List UInt8) : Web String := do
  let lang := langOf (queryGet query "lang")
  let timeoutS := (parseI64 (queryGet query "timeout")).getD 10
  let maxBytes := (parseI64 (queryGet query "mem")).getD 16384
  match parseUnsigned 32 (queryGet query "revert") with
  | some revert => act (.setRevert revert)
  | none => pure ()
  evalProgram dev (runCode method query body) lang timeoutS maxBytes

/-! ## `/mcp` -/

/-- `jsonrpc_ok`. -/
def jsonrpcOk (serde : SerdeJson) (id result : JsonValue) : String :=
  serde.toString (.object [("jsonrpc", .str "2.0"), ("id", id), ("result", result)])

/-- `jsonrpc_err`. -/
def jsonrpcErr (serde : SerdeJson) (id : JsonValue) (code : ℤ) (message : String) : String :=
  serde.toString (.object [("jsonrpc", .str "2.0"), ("id", id),
    ("error", .object [("code", .int code), ("message", .str message)])])

/-- The answer to `initialize`. -/
def initializeResult (protocolVersion : String) : JsonValue :=
  .object [("protocolVersion", .str protocolVersion),
    ("capabilities", .object [("tools", .object [])]),
    ("serverInfo", .object [("name", .str "pyspell-esp32"), ("version", .str "0.1.0")])]

/-- A property of the input of a tool. -/
def inputProperty (type description : String) : JsonValue :=
  .object [("type", .str type), ("description", .str description)]

/-- The answer to `tools/list`. -/
def toolsResult : JsonValue :=
  .object [("tools", .array [.object [("name", .str "run_pyspell"),
    ("description", .str ("Compile and run a sandboxed PySpell program (a Python/Rust " ++
      "expression subset) live on this ESP32, against live device state. Returns the evaluated " ++
      "value as text. Allowed: arithmetic, comparisons, bool, ternary, lists, strings, builtins " ++
      "(len,abs,min,max,sum,round,int,float,str), fetch_json(url,\"a.b.0.c\"), json_get, and " ++
      "free vars like free_heap, uptime_s. Not allowed: def, loops, imports, assignment.")),
    ("inputSchema", .object [("type", .str "object"),
      ("properties", .object [
        ("code", inputProperty "string"
          "PySpell program: let-bindings + one expression, e.g. free_heap > 100000"),
        ("lang", .object [("type", .str "string"), ("enum", .array [.str "py", .str "rs"]),
          ("description", .str "Syntax, default py")]),
        ("timeout", inputProperty "integer" "Wall-clock seconds 1-60, default 10"),
        ("mem", inputProperty "integer" ("Per-job memory budget in bytes (1024-262144, " ++
          "default 16384). Rejected up front if the device lacks free heap."))]),
      ("required", .array [.str "code"])])]])]

/-- The answer to a `tools/call` that ran. -/
def callResult (result : String) : JsonValue :=
  .object [("content", .array [.object [("type", .str "text"), ("text", .str result)]]),
    ("isError", .bool ("error:".toList.isPrefixOf result.toList))]

/-- A member of a value, if both are there. -/
def member (v : Option JsonValue) (key : String) : Option JsonValue := v.bind (JsonValue.get key)

/-- A member that is a string. -/
def memberStr (v : Option JsonValue) (key : String) : Option String :=
  (member v key).bind JsonValue.asStr

/-- A member that is an integer. -/
def memberI64 (v : Option JsonValue) (key : String) : Option Int64 :=
  (member v key).bind JsonValue.asI64

/-- `mcp_handle`. -/
def mcpHandle (dev : Device) (body : List UInt8) : Web String :=
  match dev.serde.fromSlice body with
  | none => pure (jsonrpcErr dev.serde .null (-32700) "parse error")
  | some req =>
    let id := (req.get "id").getD .null
    let method := (memberStr (some req) "method").getD ""
    if method = "initialize" then
      let pv := (memberStr (req.get "params") "protocolVersion").getD "2024-11-05"
      pure (jsonrpcOk dev.serde id (initializeResult pv))
    else if method = "tools/list" then pure (jsonrpcOk dev.serde id toolsResult)
    else if method = "tools/call" then
      let params := req.get "params"
      let name := (memberStr params "name").getD ""
      if name ≠ "run_pyspell" then pure (jsonrpcErr dev.serde id (-32602) "unknown tool")
      else do
        let args := member params "arguments"
        let code := (memberStr args "code").getD ""
        let lang := ((memberStr args "lang").map langOf).getD .python
        let timeout := (memberI64 args "timeout").getD 10
        let mem := (memberI64 args "mem").getD 16384
        let result ← evalProgram dev code lang timeout mem
        pure (jsonrpcOk dev.serde id (callResult result))
    -- a notification gets no response body
    else if id.isNull then pure ""
    else pure (jsonrpcErr dev.serde id (-32601) "method not found")

/-! ## Routes -/

/-- The answer of `/generate`: a prompt is posted, and its text is polled for. -/
def generate (dev : Device) (method : String) (body : List UInt8) : Web String :=
  if eqIgnoreAsciiCase method "POST" then
    let prompt := trim (fromUtf8Lossy body)
    if prompt = "" then pure "error: empty prompt"
    else do
      act (.startLlm prompt)
      pure (dev.llmStart prompt)
  else pure dev.llmPoll

/-- `CACHE`. -/
def cache : String := "public, max-age=604800"

/-- A body that browsers may keep. -/
def cachedReply (contentType : String) (source : BodySource) : HttpReply :=
  ⟨200, contentType, source, some cache⟩

/-- `route`. -/
def route (dev : Device) (method path query : String) (body : List UInt8) :
    Web (Option HttpReply) :=
  if path = "/" then pure (some (.okStatic "text/html; charset=utf-8" dev.page))
  else if path = "/run" then do
    let out ← run dev method query body
    pure (some (.okOwned "text/plain; charset=utf-8" (utf8 out)))
  else if path = "/generate" then do
    let out ← generate dev method body
    pure (some (.okOwned "text/plain; charset=utf-8" (utf8 out)))
  else if path = "/mcp" then do
    let out ← mcpHandle dev body
    pure (some (.okOwned "application/json" (utf8 out)))
  else if path = "/model" then
    pure (dev.modelSource.map (cachedReply "application/octet-stream"))
  else if path = "/tokenizer" then
    pure (dev.tokenizerSource.map (cachedReply "application/octet-stream"))
  else if path = "/tinyllm_wasm.js" then
    pure (some (cachedReply "text/javascript; charset=utf-8" (.static dev.wasmJs)))
  else if path = "/tinyllm_wasm_bg.wasm" then
    pure (some (cachedReply "application/wasm" (.static dev.wasmBg)))
  else if path = "/wordmeta" then pure (dev.wordmetaSource.map (cachedReply "application/json"))
  else if path = "/embeddings" then
    pure (dev.embeddingsSource.map (cachedReply "application/octet-stream"))
  else pure none

/-! ## What is evaluated -/

/-- The evaluations that a computation adds are those of `E`. -/
def Evaluates {α : Type} (m : Web α) (E : Evaluation → Prop) : Prop :=
  ∀ acts e, .evaluate e ∈ (m acts).2 ↔ .evaluate e ∈ acts ∨ E e

section Rules

variable {α β : Type} {m : Web α} {k : α → Web β} {E : Evaluation → Prop}

theorem evaluates_pure (a : α) : Evaluates (pure a) fun _ => False := fun _ _ =>
  (iff_of_eq (or_false _)).symm

theorem evaluates_lift (x : Outcome Empty α) : Evaluates (lift x) fun _ => False := fun _ _ =>
  (iff_of_eq (or_false _)).symm

/-- What follows evaluates nothing. -/
theorem Evaluates.followed (hm : Evaluates m E) (hk : ∀ a, Evaluates (k a) fun _ => False) :
    Evaluates (m >>= k) E := by
  intro acts e
  rw [← hm acts e, bind_run]
  rcases m acts with ⟨a | _ | _ | _, acts'⟩
  · rw [hk a acts' e, or_false]
  all_goals rfl

/-- Another act comes first. -/
theorem Evaluates.after {a : Act} {k : Unit → Web β} (ha : ∀ e, a ≠ .evaluate e)
    (hk : Evaluates (k ()) E) : Evaluates (act a >>= k) E := by
  intro acts e
  refine (hk (acts ++ [a]) e).trans ?_
  rw [List.mem_append, List.mem_singleton, or_iff_left (ha e).symm]

end Rules

/-- **A run evaluates its program**, also when it panics. -/
theorem evaluates_evaluate (e : Evaluation) : Evaluates (evaluate e) fun e' => e' = e := by
  intro acts e'
  have hacts : (evaluate e acts).2 = acts ++ [.evaluate e] := rfl
  rw [hacts, List.mem_append, List.mem_singleton, Act.evaluate.injEq]

/-- What `eval_program` is called with. -/
structure Job where
  code : String
  lang : Lang
  timeoutS : Int64
  maxBytes : Int64

/-- The length and the heap admit the job. -/
def Job.Admitted (dev : Device) (job : Job) : Prop :=
  job.code ≠ "" ∧ (utf8 job.code).length ≤ maxCode ∧
    min ((jobBytes job.maxBytes).toNat + memMargin) (2 ^ 32 - 1) ≤ dev.freeHeap.toNat

instance (dev : Device) (job : Job) : Decidable (job.Admitted dev) :=
  inferInstanceAs (Decidable (_ ∧ _ ∧ _))

/-- The program of a job, if it gets as far as that. -/
def Job.program (dev : Device) (job : Job) : Option Program :=
  if job.Admitted dev then (Parse.parse job.code job.lang).toOption else none

/-- The evaluation of a job. -/
def Job.evaluation (dev : Device) (job : Job) (program : Program) : Evaluation :=
  ⟨program, jobHost dev job.timeoutS, 2000000, jobBytes job.maxBytes⟩

/-- The evaluations of a job, one or none. -/
def Job.Runs (dev : Device) (job : Job) (e : Evaluation) : Prop :=
  ∃ p, job.program dev = some p ∧ e = job.evaluation dev p

/-- **`eval_program` evaluates the program of its job.** -/
theorem evaluates_evalProgram (dev : Device) (job : Job) :
    Evaluates (evalProgram dev job.code job.lang job.timeoutS job.maxBytes) (job.Runs dev) := by
  -- nothing runs when the device does not get as far as the program
  have hnone : job.program dev = none → ∀ {m : Web String}, Evaluates m (fun _ => False) →
      Evaluates m (job.Runs dev) := by
    intro hprogram m hm acts e
    have hruns : ¬ job.Runs dev e := by
      rintro ⟨p, hp, -⟩
      rw [hprogram] at hp
      cases hp
    rw [hm acts e, or_false, or_iff_left hruns]
  have hrefused : ¬ job.Admitted dev → job.program dev = none := fun h => if_neg h
  unfold evalProgram
  dsimp only
  split_ifs with hempty hlong hheap
  · exact hnone (hrefused fun h => h.1 hempty) (evaluates_pure _)
  · exact hnone (hrefused fun h => absurd h.2.1 (not_le.mpr hlong)) (evaluates_pure _)
  · exact hnone (hrefused fun h => absurd h.2.2 (not_le.mpr hheap)) (evaluates_pure _)
  · have hprogram : job.program dev = (Parse.parse job.code job.lang).toOption :=
      if_pos ⟨hempty, not_lt.mp hlong, not_lt.mp hheap⟩
    cases hparse : Parse.parse job.code job.lang with
    | ok p =>
      have hruns : job.Runs dev = fun e => e = job.evaluation dev p := by
        funext e
        rw [hparse] at hprogram
        rw [Job.Runs, hprogram]
        simp [Outcome.toOption]
      rw [hruns]
      exact (evaluates_evaluate _).followed fun out =>
        (evaluates_pure out).after fun e => by simp
    | err e =>
      rw [hparse] at hprogram
      exact hnone hprogram (evaluates_pure _)
    | panic =>
      rw [hparse] at hprogram
      exact hnone hprogram (evaluates_lift _)
    | outOfFuel =>
      rw [hparse] at hprogram
      exact hnone hprogram (evaluates_lift _)

/-! ### The jobs of a request -/

/-- The job of a request for `/run`. -/
def runJob (method query : String) (body : List UInt8) : Job where
  code := runCode method query body
  lang := langOf (queryGet query "lang")
  timeoutS := (parseI64 (queryGet query "timeout")).getD 10
  maxBytes := (parseI64 (queryGet query "mem")).getD 16384

theorem evaluates_run (dev : Device) (method query : String) (body : List UInt8) :
    Evaluates (run dev method query body) ((runJob method query body).Runs dev) := by
  have hjob := evaluates_evalProgram dev (runJob method query body)
  unfold run
  dsimp only
  split
  · exact hjob.after fun e => by simp
  · exact hjob

/-- The job of the arguments of the tool. -/
def toolJob (args : Option JsonValue) : Job where
  code := (memberStr args "code").getD ""
  lang := ((memberStr args "lang").map langOf).getD .python
  timeoutS := (memberI64 args "timeout").getD 10
  maxBytes := (memberI64 args "mem").getD 16384

/-- The job of a request for `/mcp`, if it calls the tool. -/
def mcpJob (dev : Device) (body : List UInt8) : Option Job :=
  (dev.serde.fromSlice body).bind fun req =>
    let params := req.get "params"
    if memberStr (some req) "method" = some "tools/call" ∧
        memberStr params "name" = some "run_pyspell" then
      some (toolJob (member params "arguments"))
    else none

/-- A default that is none of the names does not matter. -/
theorem getD_eq_iff {o : Option String} {s : String} (hs : "" ≠ s) :
    o.getD "" = s ↔ o = some s := by
  cases o with
  | none => simp [hs]
  | some t => simp

section Jobs

variable {α : Type} {dev : Device} {o : Option Job} {job : Job} {m : Web α}

/-- A request with a job. -/
theorem evaluates_some (ho : o = some job) (hm : Evaluates m (job.Runs dev)) :
    Evaluates m fun e => ∃ job, o = some job ∧ job.Runs dev e := by
  subst ho
  simpa using hm

/-- A request without a job. -/
theorem evaluates_none (ho : o = none) (hm : Evaluates m fun _ => False) :
    Evaluates m fun e => ∃ job, o = some job ∧ job.Runs dev e := by
  subst ho
  simpa using hm

end Jobs

/-- **`/mcp` evaluates the program of a tool call**, and nothing else. -/
theorem evaluates_mcpHandle (dev : Device) (body : List UInt8) :
    Evaluates (mcpHandle dev body) fun e => ∃ job, mcpJob dev body = some job ∧ job.Runs dev e := by
  unfold mcpHandle mcpJob
  cases dev.serde.fromSlice body with
  | none => exact evaluates_none rfl (evaluates_pure _)
  | some req =>
    rw [Option.bind_some]
    dsimp only
    by_cases hmethod : memberStr (some req) "method" = some "tools/call"
    · have hcall : (memberStr (some req) "method").getD "" = "tools/call" := by rw [hmethod]; rfl
      rw [hcall, if_neg (by decide), if_neg (by decide), if_pos rfl]
      by_cases hname : memberStr (req.get "params") "name" = some "run_pyspell"
      · rw [if_neg (by rw [hname]; decide)]
        have hjob := evaluates_evalProgram dev (toolJob (member (req.get "params") "arguments"))
        exact evaluates_some (if_pos ⟨hmethod, hname⟩)
          (hjob.followed fun result => evaluates_pure _)
      · rw [if_pos fun h => hname ((getD_eq_iff (by decide)).mp h)]
        exact evaluates_none (if_neg fun h => hname h.2) (evaluates_pure _)
    · have hcall : ¬ (memberStr (some req) "method").getD "" = "tools/call" := fun h =>
        hmethod ((getD_eq_iff (by decide)).mp h)
      refine evaluates_none (if_neg fun h => hmethod h.1) ?_
      split_ifs
      all_goals exact evaluates_pure _

theorem evaluates_generate (dev : Device) (method : String) (body : List UInt8) :
    Evaluates (generate dev method body) fun _ => False := by
  unfold generate
  dsimp only
  split_ifs
  · exact evaluates_pure _
  · exact (evaluates_pure _).after fun e => by simp
  · exact evaluates_pure _

/-- The job of a request, whatever its route. -/
def routeJob (dev : Device) (method path query : String) (body : List UInt8) : Option Job :=
  if path = "/run" then some (runJob method query body)
  else if path = "/mcp" then mcpJob dev body
  else none

/-- **What a route evaluates**: the program of its job. -/
theorem evaluates_route (dev : Device) (method path query : String) (body : List UInt8) :
    Evaluates (route dev method path query body) fun e =>
      ∃ job, routeJob dev method path query body = some job ∧ job.Runs dev e := by
  by_cases hrun : path = "/run"
  · subst hrun
    rw [route, if_neg (by decide), if_pos rfl]
    exact evaluates_some rfl
      ((evaluates_run dev method query body).followed fun out => evaluates_pure _)
  by_cases hmcp : path = "/mcp"
  · subst hmcp
    rw [route, if_neg (by decide), if_neg (by decide), if_neg (by decide), if_pos rfl]
    exact (evaluates_mcpHandle dev body).followed fun out => evaluates_pure _
  have hjob : routeJob dev method path query body = none := by
    rw [routeJob, if_neg hrun, if_neg hmcp]
  refine evaluates_none hjob ?_
  rw [route, if_neg hrun, if_neg hmcp]
  split_ifs
  · exact evaluates_pure _
  · exact (evaluates_generate dev method body).followed fun out => evaluates_pure _
  all_goals exact evaluates_pure _

end PyspellWeb
