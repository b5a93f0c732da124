/-
# The fetch gate

The threads of the server on the local network have stacks that are too thin for a fetch.
With `allow_fetch` off, `handle` refuses a request for `/run` that has `fetch` in its body,
and hands everything else to the routes of the handler, which evaluate with a network.

The gate holds for a program that is the body: its calls stand in it by name, and what stands
in the decoded text stands in the bytes (`posted_not_fetches`).  The program of another
request for `/run` stands in the query, and that of a tool call in a document; neither is
looked at (`uncheckedJob`), and `gate_honoured_iff` says that nothing else gets past.
-/
import PySpell.CallNames
import PySpell.Lib.Lossy
import PySpell.LocalServer
import PySpell.PyspellWeb

open Text Http PyspellWeb StateOutcome

/-- The program calls `fetch` or `fetch_json`. -/
def Program.Fetches (p : Program) : Prop := .fetch ∈ p.calls ∨ .fetchJson ∈ p.calls

namespace LocalServer

/-! ## The server -/

/-- The check of `handle`. -/
def refuses (allowFetch : Bool) (r : Request) : Bool :=
  !allowFetch && r.path = "/run" && (find r.body (utf8 "fetch")).isSome

/-- The second half of `handle`, with what the handler does to the device. -/
def serve (allowFetch : Bool) (dev : Device) (r : Request) : Web (List UInt8) :=
  if refuses allowFetch r then pure (writeFull 200 "text/plain; charset=utf-8" fetchRefused)
  else do
    match ← route dev r.method r.path r.query r.body with
    | some reply =>
      let response := streamReply reply (utf8 r.head)
      pure (response.head ++ response.body)
    | none => pure (writeFull 404 "text/plain; charset=utf-8" (utf8 "not found\n"))

/-- **`serve` writes what `handle` writes**, when the handler comes back with a reply. -/
theorem serve_eq_handle {allowFetch : Bool} {dev : Device} {segment : List UInt8} {r : Request}
    {f : RouteFn} {acts : List Act} (hread : readRequest segment = some r)
    (hroute : (route dev r.method r.path r.query r.body acts).1 =
      .ok (f r.method r.path r.query r.body)) :
    (serve allowFetch dev r acts).1 = .ok (handle allowFetch f segment) := by
  rw [handle, hread, serve]
  dsimp only
  rw [refuses]
  split_ifs
  · rfl
  · rcases hout : route dev r.method r.path r.query r.body acts with ⟨out, acts'⟩
    rw [hout] at hroute
    obtain rfl : out = _ := hroute
    rw [bind_run_of_ok hout]
    cases f r.method r.path r.query r.body <;> rfl

/-- The job of a request that is served with the gate closed. -/
def servedJob (dev : Device) (r : Request) : Option Job :=
  if refuses false r then none else routeJob dev r.method r.path r.query r.body

/-- What a request evaluates. -/
theorem evaluates_serve (dev : Device) (r : Request) :
    Evaluates (serve false dev r) fun e =>
      ∃ job, servedJob dev r = some job ∧ job.Runs dev e := by
  by_cases hrefuse : refuses false r = true
  · rw [serve, if_pos hrefuse]
    exact evaluates_none (if_pos hrefuse) (evaluates_pure _)
  · rw [serve, if_neg hrefuse, servedJob, if_neg hrefuse]
    refine (evaluates_route dev r.method r.path r.query r.body).followed fun reply => ?_
    cases reply with
    | none => exact evaluates_pure _
    | some reply => exact evaluates_pure _

/-! ## Programs that are posted -/

/-- A program that fetches has the word in its text. -/
theorem fetch_infix_of_fetches {code : String} {lang : Lang} {p : Program}
    (hparse : Parse.parse code lang = .ok p) (h : p.Fetches) : utf8 "fetch" <:+: utf8 code := by
  have hname : ∀ {b}, b = Builtin.fetch ∨ b = Builtin.fetchJson → b ∈ p.calls →
      utf8 "fetch" <:+: utf8 code := by
    intro b hfetch hb
    have hne : b ≠ .contains := by rcases hfetch with rfl | rfl <;> decide
    obtain ⟨x, hx, hinfix⟩ := Grammar.name_of_parse hparse hb hne
    refine List.IsInfix.trans (List.IsPrefix.isInfix ?_) hinfix
    rcases hfetch with rfl | rfl
    · obtain rfl : x = "fetch" := List.mem_singleton.mp hx
      exact List.prefix_rfl
    · obtain rfl : x = "fetch_json" := List.mem_singleton.mp hx
      exact ⟨utf8 "_json", (utf8_append "fetch" "_json").symm⟩
  rcases h with h | h
  · exact hname (.inl rfl) h
  · exact hname (.inr rfl) h

/-- **What is posted without the word does not fetch.** -/
theorem posted_not_fetches {body : List UInt8} {lang : Lang} {p : Program}
    (hbody : (find body (utf8 "fetch")).isSome = false)
    (hparse : Parse.parse (trim (fromUtf8Lossy body)) lang = .ok p) : ¬ p.Fetches := by
  intro h
  have htext := (fetch_infix_of_fetches hparse h).trans (infix_utf8_trim _)
  rw [fromUtf8Lossy_eq, utf8_ofList (lossy body)] at htext
  have hascii : ∀ b ∈ utf8 "fetch", b.toNat < 0x80 :=
    List.forall_iff_forall_mem.mp (by decide)
  have hbytes := infix_of_infix_lossy hascii htext
  rw [← Search.position_isSome_iff (by decide)] at hbytes
  rw [find, hbytes] at hbody
  cases hbody

/-! ## Programs that are not looked at -/

/-- The job whose program the gate does not look at: that of a `/run` which is not posted, or
of a tool call. -/
def uncheckedJob (dev : Device) (r : Request) : Option Job :=
  if r.path = "/run" then
    if eqIgnoreAsciiCase r.method "POST" || (find r.body (utf8 "fetch")).isSome then none
    else some (runJob r.method r.query r.body)
  else if r.path = "/mcp" then mcpJob dev r.body
  else none

/-- The gate looks at a body without the word, and at other routes, in vain. -/
theorem refuses_eq_false {r : Request}
    (h : r.path = "/run" → (find r.body (utf8 "fetch")).isSome = false) :
    refuses false r = false := by
  unfold refuses
  by_cases hrun : r.path = "/run"
  · rw [h hrun, Bool.and_false]
  · rw [decide_eq_false hrun, Bool.and_false, Bool.false_and]

theorem servedJob_of_unchecked {dev : Device} {r : Request} {job : Job}
    (h : uncheckedJob dev r = some job) : servedJob dev r = some job := by
  unfold uncheckedJob at h
  unfold servedJob routeJob
  by_cases hrun : r.path = "/run"
  · rw [if_pos hrun] at h
    split at h
    · cases h
    next hposted =>
    rw [Bool.not_eq_true, Bool.or_eq_false_iff] at hposted
    rw [refuses_eq_false fun _ => hposted.2, if_neg Bool.false_ne_true, if_pos hrun, h]
  · rw [if_neg hrun] at h
    rw [refuses_eq_false fun hrun' => absurd hrun' hrun, if_neg Bool.false_ne_true, if_neg hrun, h]

/-- A job that is served was not looked at, or is the body without the word. -/
theorem servedJob_cases {dev : Device} {r : Request} {job : Job}
    (h : servedJob dev r = some job) : uncheckedJob dev r = some job ∨
      (find r.body (utf8 "fetch")).isSome = false ∧ job.code = trim (fromUtf8Lossy r.body) := by
  unfold servedJob routeJob at h
  unfold uncheckedJob
  split at h
  · cases h
  next hrefuse =>
  by_cases hrun : r.path = "/run"
  · rw [if_pos hrun] at h ⊢
    have hword : (find r.body (utf8 "fetch")).isSome = false := by
      rw [refuses, decide_eq_true hrun] at hrefuse
      simpa using hrefuse
    rw [hword, Bool.or_false]
    by_cases hpost : eqIgnoreAsciiCase r.method "POST" = true
    · right
      rw [← Option.some_inj.mp h]
      exact ⟨rfl, if_pos hpost⟩
    · left
      rw [if_neg hpost, h]
  · rw [if_neg hrun] at h ⊢
    exact .inl h

/-- The program of a job is what its code parses to. -/
theorem parse_of_program {dev : Device} {job : Job} {p : Program} (h : job.program dev = some p) :
    Parse.parse job.code job.lang = .ok p := by
  unfold Job.program at h
  split_ifs at h
  exact Outcome.toOption_eq_some.mp h

/-- **The gate is honoured** by a request exactly if the program that it does not look at, as
far as the device comes to evaluate it, does not fetch. -/
theorem gate_honoured_iff (dev : Device) (r : Request) :
    (∀ e, .evaluate e ∈ (serve false dev r []).2 → e.host.net.isSome = true →
      ¬ e.program.Fetches) ↔
    ∀ job p, uncheckedJob dev r = some job → job.program dev = some p → ¬ p.Fetches := by
  constructor
  · intro h job p hjob hp
    refine h (job.evaluation dev p) ?_ rfl
    exact (evaluates_serve dev r [] _).mpr (.inr ⟨job, servedJob_of_unchecked hjob, p, hp, rfl⟩)
  · intro h e he _
    rcases (evaluates_serve dev r [] e).mp he with hnil | ⟨job, hjob, p, hp, rfl⟩
    · cases hnil
    rcases servedJob_cases hjob with hun | ⟨hbody, hcode⟩
    · exact h job p hun hp
    · have hparse := parse_of_program hp
      rw [hcode] at hparse
      exact posted_not_fetches hbody hparse

/-! ### A fetch in the query -/

/-- A device with nothing on it but a network. -/
def bareDevice : Device where
  freeHeap := 262144
  envFreeHeap := 262144
  envMinFreeHeap := 262144
  envTimeUs := 0
  startUs := 0
  nowUs := fun _ => 0
  net := ⟨fun _ _ => .error .timeout, fun _ _ _ => .error .timeout⟩
  display := fun _ _ => .ok ()
  actuator := ⟨fun _ _ _ => .ok (), fun _ => .ok ()⟩
  toUppercase := id
  toLowercase := id
  sizeOfValue := 16
  serde := ⟨fun _ => none, fun _ => ""⟩
  page := []
  wasmJs := []
  wasmBg := []
  modelSource := none
  tokenizerSource := none
  wordmetaSource := none
  embeddingsSource := none
  llmStart := fun _ => ""
  llmPoll := ""

def fetchQuery : String := "code=fetch(%22http://a%22)"

/-- `GET /run?code=fetch(%22http://a%22)`. -/
def fetchRequest : Request where
  head := "GET /run?code=fetch(%22http://a%22) HTTP/1.1"
  method := "GET"
  path := "/run"
  query := fetchQuery
  body := []

def fetchSegment : List UInt8 := utf8 (fetchRequest.head ++ "\r\n\r\n")

theorem calls_fetchQuery :
    ((runJob "GET" fetchQuery []).program bareDevice).map Program.calls = some [.fetch] := by
  decide +kernel

theorem readRequest_fetchSegment : readRequest fetchSegment = some fetchRequest := by
  have hfields : (readRequest fetchSegment).map
      (fun r => (r.head, r.method, r.path, r.query, r.body)) =
        some (fetchRequest.head, "GET", "/run", fetchQuery, []) := by decide +kernel
  obtain ⟨⟨head, method, path, query, body⟩, hr, heq⟩ := Option.map_eq_some_iff.mp hfields
  simp only [Prod.mk.injEq] at heq
  obtain ⟨rfl, rfl, rfl, rfl, rfl⟩ := heq
  exact hr

/-- **A program in the query fetches** although the gate is closed. -/
theorem fetch_past_gate : readRequest fetchSegment = some fetchRequest ∧
    ∃ e, .evaluate e ∈ (serve false bareDevice fetchRequest []).2 ∧ e.host.net.isSome = true ∧
      e.program.Fetches := by
  obtain ⟨p, hp, hcalls⟩ := Option.map_eq_some_iff.mp calls_fetchQuery
  have hjob : servedJob bareDevice fetchRequest = some (runJob "GET" fetchQuery []) := by
    rw [servedJob, if_neg (by decide)]
    exact if_pos rfl
  refine ⟨readRequest_fetchSegment, (runJob "GET" fetchQuery []).evaluation bareDevice p, ?_, rfl,
    ?_⟩
  · exact (evaluates_serve bareDevice fetchRequest [] _).mpr (.inr ⟨_, hjob, p, hp, rfl⟩)
  · left
    change Builtin.fetch ∈ p.calls
    rw [hcalls]
    exact List.mem_singleton_self _

end LocalServer
