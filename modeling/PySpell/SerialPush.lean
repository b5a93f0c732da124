/-
# One reply for each program

In a run of the link over programs that it can carry (`Fits`), the two parties stay
paired.  The invariant (`Paired`) has three forms: nobody waits; the host waits and
its request is still on its way into the device; the host waits and the reply is on
its way back.  In each of them all bytes towards the host, with those it has read of
the current line, are lines of the device's log and at most that one reply.

`push_program_outcomes` reads off what the protocol promises: the device handles
whole request lines in the order they were written, sends one reply for each, each
call returns the outcome of its program, and every call can always be finished.
`replies_of_line` counts what the device sends for a line of any length: a line
that is longer than `MAX_LINE` by more than one byte is answered more than once, and
its tail is handled as a line of its own.
-/
import Mathlib.Data.Prod.Lex
import Mathlib.Order.WellFounded
import PySpell.SerialLink
import PySpell.Lib.Split

namespace Serial

open Text Runs

variable {pf : Platform}

/-! ## Lines -/

/-- Bytes without a newline. -/
def NoNewline (l : List UInt8) : Prop := ∀ b ∈ l, isNewline b = false

/-- Complete lines of the device's log. -/
inductive Quiet : List UInt8 → Prop
  | nil : Quiet []
  | line {text rest : List UInt8} {newline : UInt8} (hnl : isNewline newline = true)
      (htext : NoNewline text) (hq : isReply (fromUtf8Lossy text) = false) (h : Quiet rest) :
      Quiet (text ++ newline :: rest)

/-- Lines that no host takes for a reply, one behind the other. -/
theorem Quiet.append {a b : List UInt8} (ha : Quiet a) (hb : Quiet b) : Quiet (a ++ b) := by
  induction ha with
  | nil => exact hb
  | line hnl htext hq _ ih =>
    rw [List.append_assoc, List.cons_append]
    exact Quiet.line hnl htext hq ih

/-- The first line of a text is determined. -/
theorem firstLine_unique {l l' rest rest' : List UInt8} {n n' : UInt8} (hl : NoNewline l)
    (hl' : NoNewline l') (hn : isNewline n = true) (hn' : isNewline n' = true)
    (h : l ++ n :: rest = l' ++ n' :: rest') : l = l' ∧ n = n' ∧ rest = rest' := by
  have hcut := Split.append_unique (p := fun b => !isNewline b)
    (fun b hb => by simp [hl b hb]) (by simp [hn]) (fun b hb => by simp [hl' b hb])
    (by simp [hn']) h
  obtain ⟨rfl, hrest⟩ := hcut
  obtain ⟨rfl, rfl⟩ := List.cons.inj hrest
  exact ⟨rfl, rfl, rfl⟩

/-- A line stays one line when text without a newline is put behind it. -/
theorem noNewline_append {a b : List UInt8} (ha : NoNewline a) (hb : NoNewline b) :
    NoNewline (a ++ b) := by
  intro x hx
  rcases List.mem_append.mp hx with hx | hx
  · exact ha x hx
  · exact hb x hx

/-- A text on one line has no newline among its bytes. -/
theorem noNewline_utf8 {s : String} (h : OneLine s) : NoNewline (utf8 s) := by
  intro b hb
  by_contra hnl
  rw [Bool.not_eq_false, isNewline, Bool.or_eq_true, decide_eq_true_iff,
    decide_eq_true_iff] at hnl
  rcases hnl with rfl | rfl
  · exact h.1 (mem_of_ascii_mem_utf8 (by decide) hb)
  · exact h.2 (mem_of_ascii_mem_utf8 (by decide) hb)

/-- As texts: two pieces without a line end make a piece without one. -/
theorem oneLine_append {s t : String} (hs : OneLine s) (ht : OneLine t) : OneLine (s ++ t) := by
  unfold OneLine
  rw [String.toList_append, List.mem_append, List.mem_append, not_or, not_or]
  exact ⟨⟨hs.1, ht.1⟩, hs.2, ht.2⟩

/-- Hex digits end no line, so a program is one line of its own whatever its bytes are. -/
theorem oneLine_encode (bytes : List UInt8) : OneLine (Hex.encode bytes) := by
  have hno := Hex.forall_mem_encodeChars (p := fun c => c ≠ '\n' ∧ c ≠ '\r')
    (fun n hn => (Hex.digit_spec n hn).2.2.2) bytes
  unfold OneLine
  rw [Hex.encode, String.toList_ofList]
  exact ⟨fun hc => (hno _ hc).1 rfl, fun hc => (hno _ hc).2 rfl⟩

/-- The request of the host is a single line; the device splits its input at newlines only. -/
theorem noNewline_requestLine (bytes : List UInt8) : NoNewline (requestLine bytes) :=
  noNewline_utf8 (oneLine_encode bytes)

/-! ## Replies -/

/-- What is put behind a prefix does not hide it. -/
theorem startsWith_append (pre s : String) : startsWith (pre ++ s) pre = true := by
  rw [startsWith, String.toList_append, List.isPrefixOf_iff_prefix]
  exact List.prefix_append _ _

/-- What is behind a prefix is read back whole. -/
theorem stripPrefix_append (pre s : String) : stripPrefix (pre ++ s) pre = some s := by
  rw [stripPrefix, if_pos (startsWith_append pre s), String.toList_append,
    ← String.length_toList, List.drop_left, String.ofList_toList]

/-- An answer with a value is taken for a reply by the host. -/
theorem isReply_replyOk (payload : List UInt8) : isReply (replyOk payload) = true := by
  rw [isReply, replyOk, startsWith_append]
  rfl

/-- So is an answer with an error. -/
theorem isReply_replyErr (msg : String) : isReply (replyErr msg) = true := by
  rw [isReply, replyErr, startsWith_append, Bool.or_true]

/-- An error is not read as a value: the two answers begin differently. -/
theorem stripPrefix_replyErr (msg : String) : stripPrefix (replyErr msg) "OK " = none := by
  rw [stripPrefix, if_neg]
  rw [startsWith, replyErr, String.toList_append]
  simp

/-- The host reads the value of an `OK` line. -/
theorem interpret_replyOk (payload : List UInt8) :
    interpret pf (replyOk payload) = (pf.decodeValue payload).mapError DslError.text := by
  have htrim : trim (Hex.encode payload) = Hex.encode payload := by
    apply trim_of_not_isWhitespace
    intro c hc
    rw [Hex.encode, String.toList_ofList] at hc
    exact Hex.forall_mem_encodeChars (p := fun c => isWhitespace c = false)
      (fun n hn => (Hex.digit_spec n hn).2.2.1) payload c hc
  rw [interpret, replyOk, stripPrefix_append]
  simp only [htrim, Hex.decode_encode]

/-- The host passes the message of the device on, as its own error. -/
theorem interpret_replyErr (msg : String) :
    interpret pf (replyErr msg) = .error ("device: " ++ trim msg) := by
  rw [interpret, stripPrefix_replyErr]
  rw [replyErr, stripPrefix_append]

/-- **The reply to a program that the link can carry**: one line, which the host takes
for the outcome of the program. -/
theorem handleLine_requestLine (hpf : pf.Sound) {p : Program} (hp : Fits pf p)
    {bytes : List UInt8} (hb : pf.toBytes p = .ok bytes) (r : Readings) :
    ∃ reply, handleLine pf r (requestLine bytes) = some reply ∧ isReply reply = true ∧
      OneLine reply ∧ interpret pf reply = outcome pf r p := by
  have hok : OneLine "OK " := by constructor <;> decide
  have herr : OneLine "ERR " := by constructor <;> decide
  have hencode : OneLine "encode: " := by constructor <;> decide
  have heval : OneLine "eval: " := by constructor <;> decide
  unfold handleLine outcome
  rw [requestLine, Hex.decode_encode]
  simp only [hpf.fromBytes_toBytes hb, hb]
  cases hev : evalOn pf r p with
  | ok v =>
    cases henc : pf.encodeValue v with
    | ok payload =>
      refine ⟨replyOk payload, by simp only [henc], isReply_replyOk payload,
        oneLine_append hok (oneLine_encode payload), ?_⟩
      rw [interpret_replyOk, hpf.decodeValue_encodeValue henc]
      simp only [henc]
      rfl
    | error e =>
      refine ⟨replyErr ("encode: " ++ e.text), by simp only [henc], isReply_replyErr _,
        oneLine_append herr (oneLine_append hencode (hpf.encodeValue_error henc)), ?_⟩
      rw [interpret_replyErr]
      simp only [henc]
  | err e =>
    exact ⟨replyErr ("eval: " ++ e.text), rfl, isReply_replyErr _,
      oneLine_append herr (oneLine_append heval (hp.oneLine r e hev)), interpret_replyErr _⟩
  | panic => exact absurd (hp.returns r) (by rw [hev]; exact Outcome.not_returns_panic)
  | outOfFuel => exact absurd (hp.returns r) (by rw [hev]; exact Outcome.not_returns_outOfFuel)

/-! ## The pairing -/

/-- The calls that have returned: their programs, their results, and what the device
has handled and replied for them.  A program that the codec refuses is not sent. -/
inductive Answered (pf : Platform) : List Program → List (Except String Value) →
    List (List UInt8 × Readings) → List String → Prop
  | nil : Answered pf [] [] [] []
  | refused {ps rs hs ts p e} (h : Answered pf ps rs hs ts) (he : pf.toBytes p = .error e) :
      Answered pf (ps ++ [p]) (rs ++ [.error e.text]) hs ts
  | answered {ps rs hs ts p bytes r reply} (h : Answered pf ps rs hs ts)
      (hb : pf.toBytes p = .ok bytes) (hr : handleLine pf r (requestLine bytes) = some reply) :
      Answered pf (ps ++ [p]) (rs ++ [outcome pf r p]) (hs ++ [(requestLine bytes, r)])
        (ts ++ [reply])

/-- Nobody waits. -/
structure Idle (pf : Platform) (programs done : List Program) (s : Link) : Prop where
  programs_eq : programs = done ++ s.todo
  waiting : s.waiting = none
  toDevice : s.toDevice = []
  device : s.device = []
  toHost : Quiet s.toHost
  requests : s.requests = s.handled.map Prod.fst
  answered : Answered pf done s.results s.handled s.replies

/-- The host waits, and `tail` and a newline are what the device has not taken. -/
structure Sending (pf : Platform) (programs done : List Program) (p : Program)
    (bytes tail line : List UInt8) (s : Link) : Prop where
  programs_eq : programs = done ++ p :: s.todo
  bytes_eq : pf.toBytes p = .ok bytes
  waiting : s.waiting = some line
  noNewline : NoNewline line
  toHost : Quiet (line ++ s.toHost)
  toDevice : s.toDevice = tail ++ [10]
  device : s.device ++ tail = requestLine bytes
  requests : s.requests = s.handled.map Prod.fst ++ [requestLine bytes]
  answered : Answered pf done s.results s.handled s.replies

/-- The host waits, and the reply is between lines of the log on its way. -/
structure Replied (pf : Platform) (programs done : List Program) (p : Program)
    (bytes line before after : List UInt8) (r : Readings) (reply : String)
    (handled : List (List UInt8 × Readings)) (replies : List String) (s : Link) : Prop where
  programs_eq : programs = done ++ p :: s.todo
  bytes_eq : pf.toBytes p = .ok bytes
  waiting : s.waiting = some line
  noNewline : NoNewline line
  toHost : line ++ s.toHost = before ++ (replyLine reply ++ after)
  quiet_before : Quiet before
  quiet_after : Quiet after
  toDevice : s.toDevice = []
  device : s.device = []
  reply_eq : handleLine pf r (requestLine bytes) = some reply
  handled_eq : s.handled = handled ++ [(requestLine bytes, r)]
  replies_eq : s.replies = replies ++ [reply]
  requests : s.requests = s.handled.map Prod.fst
  answered : Answered pf done s.results handled replies

/-- The two parties are paired. -/
inductive Paired (pf : Platform) (programs : List Program) (s : Link) : Prop
  | idle (done) (h : Idle pf programs done s)
  | sending (done p bytes tail line) (h : Sending pf programs done p bytes tail line s)
  | replied (done p bytes line before after r reply handled replies)
      (h : Replied pf programs done p bytes line before after r reply handled replies s)

/-- Nothing is on the line yet, and every program is still to come. -/
theorem paired_start (programs : List Program) : Paired pf programs (start programs) :=
  .idle [] ⟨rfl, rfl, rfl, rfl, .nil, rfl, .nil⟩

/-! ### One event -/

/-- The host puts the next program on the line: the exchange goes from idle to sending, with
the whole request still to be read. The host waits in the other two phases, so it cannot call
in them. -/
theorem paired_call {programs : List Program} {s s' : Link} (h : Paired pf programs s)
    (hs : callNext pf s = some s') : Paired pf programs s' := by
  unfold callNext at hs
  cases h with
  | sending done p bytes tail line h => rw [h.waiting] at hs; simp at hs
  | replied done p bytes line before after r reply handled replies h =>
    rw [h.waiting] at hs
    simp at hs
  | idle done h =>
    rw [h.waiting] at hs
    cases htodo : s.todo with
    | nil => rw [htodo] at hs; simp at hs
    | cons p ps =>
      have hprograms : programs = done ++ [p] ++ ps := by
        rw [List.append_assoc, List.singleton_append, ← htodo]
        exact h.programs_eq
      simp only [htodo] at hs
      split at hs
      · next e he =>
        rw [Option.some_inj] at hs
        subst hs
        exact .idle _ ⟨hprograms, rfl, h.toDevice, h.device, h.toHost, h.requests,
          h.answered.refused he⟩
      · next bytes hb =>
        rw [Option.some_inj] at hs
        subst hs
        refine .sending done p bytes (requestLine bytes) []
          ⟨?_, hb, rfl, ?_, h.toHost, ?_, ?_, ?_, h.answered⟩
        · simpa using hprograms
        · intro b hmem
          cases hmem
        · show s.toDevice ++ (requestLine bytes ++ [10]) = _
          rw [h.toDevice, List.nil_append]
        · show s.device ++ requestLine bytes = _
          rw [h.device, List.nil_append]
        · show s.requests ++ [requestLine bytes] = _
          rw [h.requests]

/-- The device takes the request byte by byte and answers it at its end. -/
theorem paired_deviceTakes (hpf : pf.Sound) {programs : List Program}
    (hfit : ∀ p ∈ programs, Fits pf p) {s s' : Link} {r : Readings}
    (h : Paired pf programs s) (hs : deviceTakes pf s r = some s') : Paired pf programs s' := by
  unfold deviceTakes at hs
  cases h with
  | idle done h => rw [h.toDevice] at hs; simp at hs
  | replied done p bytes line before after r reply handled replies h =>
    rw [h.toDevice] at hs
    simp at hs
  | sending done p bytes tail line h =>
    have hp : Fits pf p := hfit p (by rw [h.programs_eq]; simp)
    rw [h.toDevice] at hs
    cases tail with
    | nil =>
      -- the newline: the buffer holds the whole request
      have hdevice : s.device = requestLine bytes := by simpa using h.device
      have hne : requestLine bytes ≠ [] := by
        intro he
        have hlen := Hex.length_utf8_encode bytes
        rw [show utf8 (Hex.encode bytes) = [] from he, List.length_nil] at hlen
        have := List.length_pos_of_ne_nil (hpf.toBytes_ne_nil h.bytes_eq)
        omega
      obtain ⟨reply, hreply, -, -, -⟩ := handleLine_requestLine hpf hp h.bytes_eq r
      have hbyte : onByte pf r s.device 10 = some ([], some (requestLine bytes), some reply) := by
        rw [onByte, if_pos (by decide), hdevice, if_neg hne, hreply]
        rfl
      simp only [List.nil_append, hbyte, Option.map_some, Option.some_inj] at hs
      subst hs
      refine .replied done p bytes line (line ++ s.toHost) [] r reply s.handled s.replies
        ⟨h.programs_eq, h.bytes_eq, h.waiting, h.noNewline, ?_, h.toHost, .nil, rfl, rfl, hreply, rfl,
          rfl, ?_, h.answered⟩
      · simp [List.append_assoc]
      · show s.requests = (s.handled ++ [(requestLine bytes, r)]).map Prod.fst
        rw [h.requests, List.map_append]
        rfl
    | cons b tail =>
      have hb : isNewline b = false :=
        noNewline_requestLine bytes b (by rw [← h.device]; simp)
      have hlen : s.device.length < maxLine := by
        have htotal := congrArg List.length h.device
        rw [requestLine, Hex.length_utf8_encode, List.length_append, List.length_cons] at htotal
        have := hp.size bytes h.bytes_eq
        rw [maxLine]
        omega
      have hbyte : onByte pf r s.device b = some (s.device ++ [b], none, none) := by
        rw [onByte, if_neg (by simp [hb]), if_pos hlen]
      simp only [List.cons_append, hbyte, Option.map_some, Option.some_inj] at hs
      subst hs
      refine .sending done p bytes tail line
        ⟨h.programs_eq, h.bytes_eq, h.waiting, h.noNewline, ?_, rfl, ?_, ?_, ?_⟩
      · simpa using h.toHost
      · simpa using h.device
      · simpa using h.requests
      · simpa using h.answered

/-- A log line goes to the host in any phase; it is quiet, so it stands before the reply without
being one. -/
theorem paired_deviceLogs {programs : List Program} {s s' : Link} {text : List UInt8}
    {newline : UInt8} (h : Paired pf programs s)
    (hs : deviceLogs s text newline = some s') : Paired pf programs s' := by
  unfold deviceLogs at hs
  split at hs
  · next hlog =>
    rw [Option.some_inj] at hs
    subst hs
    obtain ⟨hnl, htext, hq⟩ := hlog
    have hline : Quiet (text ++ [newline]) := by
      refine .line hnl (fun b hb => ?_) (by simpa using hq) .nil
      simpa using List.all_eq_true.mp htext b hb
    cases h with
    | idle done h =>
      exact .idle done { h with toHost := h.toHost.append hline }
    | sending done p bytes tail line h =>
      refine .sending done p bytes tail line { h with toHost := ?_ }
      rw [← List.append_assoc]
      exact h.toHost.append hline
    | replied done p bytes line before after r reply handled replies h =>
      refine .replied done p bytes line before (after ++ (text ++ [newline])) r reply handled
        replies { h with quiet_after := h.quiet_after.append hline, toHost := ?_ }
      rw [← List.append_assoc, h.toHost]
      simp [List.append_assoc]
  · cases hs

/-! ### The host takes a line -/

/-- A line of the log that the host has read to its end is dropped. -/
theorem quiet_cases {line rest : List UInt8} {b : UInt8} (hline : NoNewline line)
    (hb : isNewline b = true) (h : Quiet (line ++ b :: rest)) :
    isReply (fromUtf8Lossy line) = false ∧ Quiet rest := by
  generalize hx : line ++ b :: rest = x at h
  cases h with
  | nil => simp at hx
  | line hnl htext hq hrest =>
    obtain ⟨rfl, -, rfl⟩ := firstLine_unique hline htext hb hnl hx
    exact ⟨hq, hrest⟩

/-- The line that the host has read to its end is one of the log, or the reply. -/
theorem reply_cases {line rest before after : List UInt8} {b : UInt8} {reply : String}
    (hline : NoNewline line) (hb : isNewline b = true) (hbefore : Quiet before)
    (hreply : OneLine reply) (h : line ++ b :: rest = before ++ (replyLine reply ++ after)) :
    (isReply (fromUtf8Lossy line) = false ∧
      ∃ before', Quiet before' ∧ rest = before' ++ (replyLine reply ++ after)) ∨
    (line = utf8 reply ∧ rest = after) := by
  cases hbefore with
  | nil =>
    have h' : line ++ b :: rest = utf8 reply ++ 10 :: after := by
      simpa [replyLine] using h
    obtain ⟨hl, -, hr⟩ :=
      firstLine_unique hline (noNewline_utf8 hreply) hb (by decide) h'
    exact Or.inr ⟨hl, hr⟩
  | line hnl htext hq hrest =>
    rw [List.append_assoc, List.cons_append] at h
    obtain ⟨rfl, -, rfl⟩ := firstLine_unique hline htext hb hnl h
    exact Or.inl ⟨hq, _, hrest, rfl⟩

/-- **The host takes a byte**, and at the end of a line looks at it. Logs before the reply are
skipped; the reply is the one to the request that is out, because the device has answered nothing
else, and it is interpreted as the answer to that program. -/
theorem paired_hostTakes (hpf : pf.Sound) {programs : List Program}
    (hfit : ∀ p ∈ programs, Fits pf p) {s s' : Link}
    (h : Paired pf programs s) (hs : hostTakes pf s = some s') : Paired pf programs s' := by
  unfold hostTakes at hs
  cases h with
  | idle done h => rw [h.waiting] at hs; simp at hs
  -- only log lines can come before the device has the request
  | sending done p bytes tail line h =>
    rw [h.waiting] at hs
    cases hhost : s.toHost with
    | nil => rw [hhost] at hs; simp at hs
    | cons b rest =>
      have hquiet := h.toHost
      rw [hhost] at hquiet
      simp only [hhost] at hs
      by_cases hb : isNewline b = true
      · obtain ⟨hno, hrest⟩ := quiet_cases h.noNewline hb hquiet
        have hnil : NoNewline [] := fun _ hmem => by cases hmem
        rw [if_pos hb, hno] at hs
        by_cases hl : line = []
        · -- an empty line is skipped
          rw [if_pos hl, Option.some_inj] at hs
          subst hs
          exact .sending done p bytes tail [] { h with
            waiting := congrArg some hl, noNewline := hnil, toHost := hrest }
        · -- a line of the log is skipped
          rw [if_neg hl, if_neg (by decide), Option.some_inj] at hs
          subst hs
          exact .sending done p bytes tail [] { h with
            waiting := rfl, noNewline := hnil, toHost := hrest }
      · rw [if_neg hb, Option.some_inj] at hs
        subst hs
        refine .sending done p bytes tail (line ++ [b]) { h with
          waiting := rfl, noNewline := ?_, toHost := ?_ }
        · exact noNewline_append h.noNewline (by simpa [NoNewline] using hb)
        · simpa using hquiet
  -- log lines, then the reply, then log lines again
  | replied done p bytes line before after r reply handled replies h =>
    rw [h.waiting] at hs
    cases hhost : s.toHost with
    | nil => rw [hhost] at hs; simp at hs
    | cons b rest =>
      have hp : Fits pf p := hfit p (by rw [h.programs_eq]; simp)
      obtain ⟨reply', hreply', his, hone, hout⟩ :=
        handleLine_requestLine hpf hp h.bytes_eq r
      rw [h.reply_eq, Option.some_inj] at hreply'
      subst hreply'
      have hbytes := h.toHost
      rw [hhost] at hbytes
      simp only [hhost] at hs
      by_cases hb : isNewline b = true
      · rw [if_pos hb] at hs
        have hnil : NoNewline [] := fun _ hmem => by cases hmem
        rcases reply_cases h.noNewline hb h.quiet_before hone hbytes with
          ⟨hno, before', hquiet, hrest⟩ | ⟨hl, hrest⟩
        · -- a line before the reply
          rw [hno] at hs
          by_cases hl : line = []
          · rw [if_pos hl, Option.some_inj] at hs
            subst hs
            exact .replied done p bytes [] before' after r reply handled replies { h with
              waiting := congrArg some hl, noNewline := hnil, toHost := hrest,
              quiet_before := hquiet }
          · rw [if_neg hl, if_neg (by decide), Option.some_inj] at hs
            subst hs
            exact .replied done p bytes [] before' after r reply handled replies { h with
              waiting := rfl, noNewline := hnil, toHost := hrest, quiet_before := hquiet }
        · -- the reply: the call returns what it says
          have hne : line ≠ [] := by
            rintro rfl
            have hempty : reply = fromUtf8Lossy [] := by rw [hl, fromUtf8Lossy_utf8]
            rw [hempty] at his
            exact absurd his (by decide)
          rw [if_neg hne, hl, fromUtf8Lossy_utf8, if_pos his, Option.some_inj] at hs
          subst hs
          refine .idle (done ++ [p]) ⟨?_, rfl, h.toDevice, h.device, ?_, h.requests, ?_⟩
          · simpa using h.programs_eq
          · show Quiet rest
            rw [hrest]
            exact h.quiet_after
          · show Answered pf (done ++ [p]) (s.results ++ [interpret pf reply]) s.handled s.replies
            rw [hout, h.handled_eq, h.replies_eq]
            exact h.answered.answered h.bytes_eq h.reply_eq
      · rw [if_neg hb, Option.some_inj] at hs
        subst hs
        refine .replied done p bytes (line ++ [b]) before after r reply handled replies { h with
          waiting := rfl, noNewline := ?_, toHost := ?_ }
        · exact noNewline_append h.noNewline (by simpa [NoNewline] using hb)
        · simpa using hbytes

/-- **Every event keeps the parties paired.** -/
theorem paired_step (hpf : pf.Sound) {programs : List Program}
    (hfit : ∀ p ∈ programs, Fits pf p) (s : Link) (e : LinkEvent) (s' : Link)
    (h : Paired pf programs s) (hs : step pf s e = some s') : Paired pf programs s' := by
  cases e with
  | call => exact paired_call h hs
  | deviceByte r => exact paired_deviceTakes hpf hfit h hs
  | log text newline => exact paired_deviceLogs h hs
  | hostByte => exact paired_hostTakes hpf hfit h hs

/-! ## Every call can be finished -/

/-- A line of the device's log. -/
def LinkEvent.isLog : LinkEvent → Bool
  | .log _ _ => true
  | _ => false

/-- What is left to do: programs to push, bytes for the device, bytes for the host. -/
def work (s : Link) : ℕ ×ₗ ℕ ×ₗ ℕ :=
  toLex (s.todo.length, toLex (s.toDevice.length, s.toHost.length))

/-- Every event but a line of the log takes from the work that is left. -/
theorem work_lt_of_step {s s' : Link} {e : LinkEvent} (he : e.isLog = false)
    (hs : step pf s e = some s') : work s' < work s := by
  unfold work
  cases e with
  | log text newline => cases he
  -- a program fewer is left
  | call =>
    simp only [step, callNext] at hs
    split at hs
    · next p ps hw htodo =>
      apply Prod.Lex.left
      rw [htodo]
      split at hs
      · rw [Option.some_inj] at hs
        subst hs
        exact Nat.lt_succ_self _
      · rw [Option.some_inj] at hs
        subst hs
        exact Nat.lt_succ_self _
    · cases hs
  -- a byte fewer is on the way to the device
  | deviceByte r =>
    simp only [step, deviceTakes] at hs
    split at hs
    · cases hs
    · next b rest hdev =>
      obtain ⟨out, -, rfl⟩ := Option.map_eq_some_iff.mp hs
      rw [hdev]
      exact Prod.Lex.right _ (Prod.Lex.left _ _ (Nat.lt_succ_self _))
  -- a byte fewer is on the way to the host
  | hostByte =>
    simp only [step, hostTakes] at hs
    split at hs
    · next line b rest hw hhost =>
      rw [hhost]
      have hlt : rest.length < (b :: rest).length := Nat.lt_succ_self _
      split at hs
      · split at hs
        · rw [Option.some_inj] at hs
          subst hs
          exact Prod.Lex.right _ (Prod.Lex.right _ hlt)
        · split at hs
          · rw [Option.some_inj] at hs
            subst hs
            exact Prod.Lex.right _ (Prod.Lex.right _ hlt)
          · rw [Option.some_inj] at hs
            subst hs
            exact Prod.Lex.right _ (Prod.Lex.right _ hlt)
      · rw [Option.some_inj] at hs
        subst hs
        exact Prod.Lex.right _ (Prod.Lex.right _ hlt)
    · cases hs

/-- All calls have returned. -/
def Finished (s : Link) : Prop := s.todo = [] ∧ s.waiting = none

/-- **While a call is to be made or waits, something other than the log can happen.** -/
theorem paired_progress (hpf : pf.Sound) {programs : List Program}
    (hfit : ∀ p ∈ programs, Fits pf p) {s : Link} (h : Paired pf programs s) :
    Finished s ∨ ∃ e, e.isLog = false ∧ (step pf s e).isSome := by
  cases h with
  | idle done h =>
    cases htodo : s.todo with
    | nil => exact Or.inl ⟨htodo, h.waiting⟩
    | cons p ps =>
      right
      cases hb : pf.toBytes p with
      | error e => exact ⟨.call, rfl, by simp only [step, callNext, h.waiting, htodo, hb]; rfl⟩
      | ok bytes => exact ⟨.call, rfl, by simp only [step, callNext, h.waiting, htodo, hb]; rfl⟩
  | sending done p bytes tail line h =>
    right
    have hp : Fits pf p := hfit p (by rw [h.programs_eq]; simp)
    let r : Readings := ⟨0, 0, 0⟩
    -- the byte is put away or ends the request, and a request is answered
    have hbyte : ∀ b rest, s.toDevice = b :: rest → ∃ out, onByte pf r s.device b = some out := by
      intro b rest hdev
      unfold onByte
      split
      · next hb =>
        split
        · exact ⟨_, rfl⟩
        · have htail : tail = [] := by
            cases htail : tail with
            | nil => rfl
            | cons c tail' =>
              have hc : c = b := by
                have := h.toDevice
                rw [hdev, htail, List.cons_append] at this
                exact (List.cons.inj this).1.symm
              have := noNewline_requestLine bytes c (by rw [← h.device, htail]; simp)
              rw [hc, hb] at this
              cases this
          have hdevice : s.device = requestLine bytes := by simpa [htail] using h.device
          obtain ⟨reply, hreply, -⟩ := handleLine_requestLine hpf hp h.bytes_eq r
          rw [hdevice, hreply]
          exact ⟨_, rfl⟩
      · split
        · exact ⟨_, rfl⟩
        · exact ⟨_, rfl⟩
    cases hdev : s.toDevice with
    | nil => exact absurd (h.toDevice.symm.trans hdev) (by simp)
    | cons b rest =>
      obtain ⟨out, hout⟩ := hbyte b rest hdev
      exact ⟨.deviceByte r, rfl,
        by simp only [step, deviceTakes, hdev, hout, Option.map_some, Option.isSome_some]⟩
  | replied done p bytes line before after r reply handled replies h =>
    right
    cases hhost : s.toHost with
    | nil =>
      -- the newline of the reply is not in what the host has read
      have hmem : (10 : UInt8) ∈ line := by
        have := h.toHost
        rw [hhost, List.append_nil] at this
        rw [this]
        simp [replyLine]
      exact absurd (h.noNewline 10 hmem) (by decide)
    | cons b rest =>
      refine ⟨.hostByte, rfl, ?_⟩
      simp only [step, hostTakes, h.waiting, hhost]
      split_ifs <;> rfl

/-- From a paired state the calls can be finished, and without a line of the log. -/
theorem exists_finish (hpf : pf.Sound) {programs : List Program}
    (hfit : ∀ p ∈ programs, Fits pf p) {s : Link} (h : Paired pf programs s) :
    ∃ more t, (∀ e ∈ more, e.isLog = false) ∧ run (step pf) s more = some t ∧ Finished t := by
  refine exists_run_of_progress (r := (· < ·)) wellFounded_lt work
    (paired_step hpf hfit) (fun s h => ?_) h
  rcases paired_progress hpf hfit h with hdone | ⟨e, he, hsome⟩
  · exact Or.inl hdone
  · obtain ⟨s', hs⟩ := Option.isSome_iff_exists.mp hsome
    exact Or.inr ⟨e, s', he, hs, work_lt_of_step he hs⟩

/-! ## What the protocol promises -/

/-- An entry of a list with one more entry. -/
theorem getElem?_concat_cases {α : Type} {l : List α} {x a : α} {k : ℕ}
    (h : (l ++ [x])[k]? = some a) : l[k]? = some a ∨ k = l.length ∧ a = x := by
  by_cases hlt : k < l.length
  · rw [List.getElem?_append_left hlt] at h
    exact Or.inl h
  · have hk := (List.getElem?_eq_some_iff.mp h).1
    rw [List.length_append, List.length_singleton] at hk
    have heq : k = l.length := by omega
    rw [heq, List.getElem?_concat_length, Option.some_inj] at h
    exact Or.inr ⟨heq, h.symm⟩

/-- What has returned: the results are those of the programs, and the device has sent
one reply for each line that it has handled. -/
theorem answered_spec {ps : List Program} {rs : List (Except String Value)}
    {hs : List (List UInt8 × Readings)} {ts : List String} (h : Answered pf ps rs hs ts) :
    rs.length = ps.length ∧
      ts.map some = hs.map (fun (line, r) => handleLine pf r line) ∧
      ∀ (k : ℕ) res, rs[k]? = some res → ∃ p r, ps[k]? = some p ∧ res = outcome pf r p ∧
        ∀ bytes, pf.toBytes p = .ok bytes → (requestLine bytes, r) ∈ hs := by
  have hkeep : ∀ {ps : List Program} {k : ℕ} {p q : Program}, ps[k]? = some p →
      (ps ++ [q])[k]? = some p := by
    intro ps k p q hk
    rw [List.getElem?_append_left (List.getElem?_eq_some_iff.mp hk).1]
    exact hk
  induction h with
  | nil => exact ⟨rfl, rfl, fun k res hk => by simp at hk⟩
  | @refused ps rs hs ts p e h he ih =>
    obtain ⟨hlen, hts, hres⟩ := ih
    refine ⟨by simp [hlen], hts, fun k res hk => ?_⟩
    rcases getElem?_concat_cases hk with hk | ⟨rfl, rfl⟩
    · obtain ⟨q, r, hq, hout⟩ := hres k res hk
      exact ⟨q, r, hkeep hq, hout⟩
    · refine ⟨p, ⟨0, 0, 0⟩, by rw [hlen]; exact List.getElem?_concat_length, ?_, ?_⟩
      · rw [outcome, he]
      · intro bytes hb
        rw [he] at hb
        cases hb
  | @answered ps rs hs ts p bytes r reply h hb hr ih =>
    obtain ⟨hlen, hts, hres⟩ := ih
    refine ⟨by simp [hlen], by simp [hts, hr], fun k res hk => ?_⟩
    rcases getElem?_concat_cases hk with hk | ⟨rfl, rfl⟩
    · obtain ⟨q, r', hq, hout, hmem⟩ := hres k res hk
      exact ⟨q, r', hkeep hq, hout, fun b hb => List.mem_append_left _ (hmem b hb)⟩
    · refine ⟨p, r, by rw [hlen]; exact List.getElem?_concat_length, rfl, fun b hb' => ?_⟩
      rw [hb, Except.ok.injEq] at hb'
      rw [← hb']
      exact List.mem_append_right _ (List.mem_singleton_self _)

/-- What is true of a paired link. -/
theorem paired_spec {programs : List Program} {s : Link} (h : Paired pf programs s) :
    (∃ pending, s.requests = s.handled.map Prod.fst ++ pending ∧
      (s.waiting = none → pending = [])) ∧
      s.replies.map some = s.handled.map (fun (line, r) => handleLine pf r line) ∧
      (∀ (k : ℕ) res, s.results[k]? = some res → ∃ p r, programs[k]? = some p ∧
        res = outcome pf r p ∧
        ∀ bytes, pf.toBytes p = .ok bytes → (requestLine bytes, r) ∈ s.handled) ∧
      (Finished s → s.results.length = programs.length) := by
  have hkeep : ∀ {done rest : List Program} {k : ℕ} {p : Program}, programs = done ++ rest →
      done[k]? = some p → programs[k]? = some p := by
    intro done rest k p heq hk
    rw [heq, List.getElem?_append_left (List.getElem?_eq_some_iff.mp hk).1]
    exact hk
  cases h with
  -- every request was answered
  | idle done h =>
    obtain ⟨hlen, hts, hres⟩ := answered_spec h.answered
    refine ⟨⟨[], by rw [h.requests, List.append_nil], fun _ => rfl⟩, hts, ?_, ?_⟩
    · intro k res hk
      obtain ⟨p, r, hp, hout⟩ := hres k res hk
      exact ⟨p, r, hkeep h.programs_eq hp, hout⟩
    · rintro ⟨htodo, -⟩
      rw [h.programs_eq, htodo, List.append_nil]
      exact hlen
  -- the last request is not handled yet
  | sending done p bytes tail line h =>
    obtain ⟨hlen, hts, hres⟩ := answered_spec h.answered
    refine ⟨⟨_, h.requests, fun hw => ?_⟩, hts, ?_, ?_⟩
    · rw [h.waiting] at hw
      cases hw
    · intro k res hk
      obtain ⟨p, r, hp, hout⟩ := hres k res hk
      exact ⟨p, r, hkeep h.programs_eq hp, hout⟩
    · rintro ⟨-, hw⟩
      rw [h.waiting] at hw
      cases hw
  -- it is handled, but the host has not read the reply
  | replied done p bytes line before after r reply handled replies h =>
    obtain ⟨hlen, hts, hres⟩ := answered_spec h.answered
    refine ⟨⟨[], by rw [h.requests, List.append_nil], fun _ => rfl⟩, ?_, ?_, ?_⟩
    · rw [h.replies_eq, h.handled_eq, List.map_append, List.map_append, hts]
      simp [h.reply_eq]
    · intro k res hk
      obtain ⟨p, r, hp, hout, hmem⟩ := hres k res hk
      refine ⟨p, r, hkeep h.programs_eq hp, hout, fun b hb => ?_⟩
      rw [h.handled_eq]
      exact List.mem_append_left _ (hmem b hb)
    · rintro ⟨-, hw⟩
      rw [h.waiting] at hw
      cases hw

/-- **The serial push protocol, for the programs that the link can carry.**  In every
run over such programs: the device handles whole request lines, in the order in which
they were written, and all of them once no call waits; it sends one reply for each;
the `k`-th call returns the outcome of the `k`-th program; and the calls that are left
can be finished. -/
theorem push_program_outcomes (hpf : pf.Sound) {programs : List Program}
    (hfit : ∀ p ∈ programs, Fits pf p) {evs : List LinkEvent} {s : Link}
    (hrun : run (step pf) (start programs) evs = some s) :
    (∃ pending, s.requests = s.handled.map Prod.fst ++ pending ∧
      (s.waiting = none → pending = [])) ∧
    s.replies.map some = s.handled.map (fun (line, r) => handleLine pf r line) ∧
    (∀ (k : ℕ) res, s.results[k]? = some res → ∃ p r, programs[k]? = some p ∧
      res = outcome pf r p ∧
      ∀ bytes, pf.toBytes p = .ok bytes → (requestLine bytes, r) ∈ s.handled) ∧
    ∃ more t, (∀ e ∈ more, e.isLog = false) ∧ run (step pf) s more = some t ∧ Finished t ∧
      t.results.length = programs.length := by
  have hpaired := run_inv (paired_step hpf hfit) (paired_start programs) hrun
  obtain ⟨hreq, hrep, hres, -⟩ := paired_spec hpaired
  obtain ⟨more, t, hmore, ht, hfin⟩ := exists_finish hpf hfit hpaired
  have hpaired' := run_inv (paired_step hpf hfit) hpaired ht
  exact ⟨hreq, hrep, hres, more, t, hmore, ht, hfin, (paired_spec hpaired').2.2.2 hfin⟩

/-! ## A codec for constants -/

/-- The wire form of small integers and of strings of 128 to 16383 bytes. -/
def encodeConst : Value → Except DslError (List UInt8)
  | .int n =>
    if 0 ≤ n.toInt ∧ n.toInt < 64 then .ok [0, UInt8.ofNat (2 * n.toInt.toNat)]
    else .error (.wire "unsupported")
  | .str s =>
    let len := (utf8 s).length
    if 128 ≤ len ∧ len < 16384 then
      .ok (3 :: UInt8.ofNat (len % 128 + 128) :: UInt8.ofNat (len / 128) :: utf8 s)
    else .error (.wire "unsupported")
  | _ => .error (.wire "unsupported")

def decodeConst : List UInt8 → Except DslError Value
  | [0, b] => .ok (.int (Int64.ofNat (b.toNat / 2)))
  | 3 :: _ :: _ :: bytes => .ok (.str (fromUtf8Lossy bytes))
  | _ => .error (.wire "unsupported")

/-! ### A small platform -/

/-- The wire form of the programs that return such a constant: no bindings, the
constant, no locals, the default number of steps. -/
def constPlatform : Platform where
  toBytes p :=
    match p.body, p.ret with
    | [], .const v =>
      if p.nLocals = 0 ∧ p.maxSteps = defaultMaxSteps then
        (encodeConst v).map fun bytes => 0 :: 0 :: (bytes ++ [0, 0x80, 0x20])
      else .error (.wire "unsupported")
    | _, _ => .error (.wire "unsupported")
  fromBytes bytes :=
    match bytes with
    | 0 :: 0 :: rest =>
      (decodeConst (rest.take (rest.length - 3))).map fun v => ⟨[], .const v, 0, defaultMaxSteps⟩
    | _ => .error (.wire "unsupported")
  encodeValue := encodeConst
  decodeValue := decodeConst
  toUppercase := fun s => s.map Char.toUpper
  toLowercase := fun s => s.map Char.toLower
  sizeOfValue := 24

/-- What the small platform of the examples writes, it reads back. -/
theorem decodeConst_encodeConst {v : Value} {bytes : List UInt8}
    (h : encodeConst v = .ok bytes) : decodeConst bytes = .ok v := by
  cases v with
  | int n =>
    simp only [encodeConst] at h
    split at h
    · next hn =>
      rw [Except.ok.injEq] at h
      subst h
      have hval : (UInt8.ofNat (2 * n.toInt.toNat)).toNat / 2 = n.toInt.toNat := by
        rw [UInt8.toNat_ofNat', Nat.mod_eq_of_lt (by omega)]
        omega
      have hn' : Int64.ofNat n.toInt.toNat = n := by
        rw [← Int64.ofInt_eq_ofNat, Int.toNat_of_nonneg hn.1, Int64.ofInt_toInt]
      simp only [decodeConst, hval, hn']
    · cases h
  | str s =>
    simp only [encodeConst] at h
    split at h
    · rw [Except.ok.injEq] at h
      subst h
      simp only [decodeConst, fromUtf8Lossy_utf8]
    · cases h
  | float x => cases h
  | bool b => cases h
  | list l => cases h

/-- The small platform meets what is asked of a platform, so the theorem applies to it. -/
theorem constPlatform_sound : constPlatform.Sound where
  toBytes_ne_nil {p bytes} h := by
    simp only [constPlatform] at h
    split at h
    · split at h
      · cases henc : encodeConst _ with
        | error e => rw [henc] at h; cases h
        | ok b =>
          rw [henc] at h
          cases h
          simp
      · cases h
    · cases h
  fromBytes_toBytes {p bytes} h := by
    obtain ⟨body, ret, nLocals, maxSteps⟩ := p
    simp only [constPlatform] at h ⊢
    split at h
    · next v =>
      split at h
      · next hp =>
        obtain ⟨rfl, rfl⟩ := hp
        cases henc : encodeConst v with
        | error e => rw [henc] at h; cases h
        | ok b =>
          rw [henc] at h
          cases h
          have hlen : (b ++ [0, 0x80, 0x20]).length - 3 = b.length := by simp
          simp only [hlen, List.take_left, decodeConst_encodeConst henc]
          rfl
      · cases h
    · cases h
  decodeValue_encodeValue h := decodeConst_encodeConst h
  encodeValue_error {v e} h := by
    have he : e = .wire "unsupported" := by
      simp only [constPlatform] at h
      cases v with
      | int n => simp only [encodeConst] at h; split at h <;> cases h; rfl
      | str s => simp only [encodeConst] at h; split at h <;> cases h; rfl
      | float x => cases h; rfl
      | bool b => cases h; rfl
      | list l => cases h; rfl
    subst he
    constructor <;> decide

/-- A program that returns a constant. -/
def constProgram (v : Value) : Program := ⟨[], .const v, 0, defaultMaxSteps⟩

/-- A constant evaluates to itself, with any readings. -/
theorem evalOn_constProgram (r : Readings) (v : Value) :
    evalOn pf r (constProgram v) = .ok v := rfl

/-- Small integers and truth values fit the link: the request of an integer is short, and
a truth value has none. -/
theorem fits_constProgram {v : Value} (hv : v = .int 1 ∨ v = .int 2 ∨ v = .bool true) :
    Fits constPlatform (constProgram v) where
  size bytes h := by
    rcases hv with rfl | rfl | rfl
    · cases h
      decide
    · cases h
      decide
    · cases h
  returns r := by
    rw [evalOn_constProgram]
    trivial
  oneLine r e h := by
    rw [evalOn_constProgram] at h
    cases h

/-! ### Three programs -/

/-- Two programs, and one between them that the wire format refuses. -/
def threePrograms : List Program :=
  [constProgram (.int 1), constProgram (.bool true), constProgram (.int 2)]

/-- What the three calls return. -/
def threeOutcomes : List (Except String Value) :=
  [.ok (.int 1), .error "wire error: unsupported", .ok (.int 2)]

/-- The results of the three programs do not depend on the readings. -/
theorem getElem?_threeOutcomes {k : ℕ} {p : Program} (r : Readings)
    (hp : threePrograms[k]? = some p) :
    threeOutcomes[k]? = some (outcome constPlatform r p) := by
  match k with
  | 0 | 1 | 2 =>
    obtain rfl := Option.some_inj.mp hp
    rfl
  | k + 3 => cases hp

/-- Pushing the three programs: the first call writes its request, the device logs a line
before it takes a byte, and whatever comes then, the calls can be finished and return the
outcomes of their programs. -/
theorem push_program_outcomes_three :
    ∃ more t, run (step constPlatform) (start threePrograms)
        ([.call, .log (utf8 "ready") 10] ++ more) = some t ∧
      Finished t ∧ t.results = threeOutcomes := by
  have hfit : ∀ p ∈ threePrograms, Fits constPlatform p := by
    intro p hp
    simp only [threePrograms, List.mem_cons, List.not_mem_nil, or_false] at hp
    rcases hp with rfl | rfl | rfl
    all_goals exact fits_constProgram (by simp)
  have hfirst : run (step constPlatform) (start threePrograms) [.call, .log (utf8 "ready") 10] =
    some _ := rfl
  obtain ⟨-, -, -, more, t, -, hmore, hfin, hlen⟩ :=
    push_program_outcomes constPlatform_sound hfit hfirst
  have hrun : run (step constPlatform) (start threePrograms)
      ([.call, .log (utf8 "ready") 10] ++ more) = some t := by
    rw [run_append, hfirst]
    exact hmore
  refine ⟨more, t, hrun, hfin, List.ext_getElem? fun k => ?_⟩
  obtain ⟨-, -, hres, -⟩ := push_program_outcomes constPlatform_sound hfit hrun
  cases hk : t.results[k]? with
  | none =>
    have hle := List.getElem?_eq_none_iff.mp hk
    rw [hlen] at hle
    have hlen' : threeOutcomes.length = threePrograms.length := rfl
    exact (List.getElem?_eq_none (hlen'.trans_le hle)).symm
  | some res =>
    obtain ⟨p, r, hp, rfl, -⟩ := hres k res hk
    exact (getElem?_threeOutcomes r hp).symm

/-! ## What the device sends for a line -/

/-- What a call does to the link. -/
theorem step_call {s : Link} {p : Program} {ps : List Program} {bytes : List UInt8}
    (hw : s.waiting = none) (htodo : s.todo = p :: ps) (hb : pf.toBytes p = .ok bytes) :
    step pf s .call = some { s with
      todo := ps
      waiting := some []
      toDevice := s.toDevice ++ (requestLine bytes ++ [10])
      requests := s.requests ++ [requestLine bytes] } := by
  simp only [step, callNext, hw, htodo, hb]

/-- What a turn of the main loop does to the link. -/
theorem step_deviceByte {s : Link} {r : Readings} {b : UInt8} {rest line : List UInt8}
    {ran : Option (List UInt8)} {reply : Option String} (hdev : s.toDevice = b :: rest)
    (h : onByte pf r s.device b = some (line, ran, reply)) :
    step pf s (.deviceByte r) = some { s with
      toDevice := rest
      device := line
      toHost := s.toHost ++ reply.elim [] replyLine
      handled := s.handled ++ ran.toList.map fun l => (l, r)
      replies := s.replies ++ reply.toList } := by
  simp only [step, deviceTakes, hdev, h, Option.map_some]

/-- Bytes that fit the buffer are collected. -/
theorem run_collect (pf : Platform) (r : Readings) {chunk : List UInt8} (hchunk : NoNewline chunk) :
    ∀ {s : Link} {rest : List UInt8}, s.toDevice = chunk ++ rest →
      s.device.length + chunk.length ≤ maxLine →
      run (step pf) s (List.replicate chunk.length (.deviceByte r)) =
        some { s with toDevice := rest, device := s.device ++ chunk } := by
  induction chunk with
  | nil =>
    intro s rest hdev _
    have hdev' : s.toDevice = rest := hdev
    simp [← hdev']
  | cons b chunk ih =>
    intro s rest hdev hlen
    rw [List.length_cons] at hlen
    have hb : isNewline b = false := hchunk b (by simp)
    have hstep : step pf s (.deviceByte r) =
        some { s with toDevice := chunk ++ rest, device := s.device ++ [b] } := by
      simp only [step, deviceTakes, hdev, List.cons_append]
      rw [onByte, if_neg (by simp [hb]), if_pos (by omega)]
      simp
    rw [List.length_cons, List.replicate_succ, run_cons_of_step hstep,
      ih (fun c hc => hchunk c (List.mem_cons_of_mem b hc)) rfl (by simp; omega)]
    simp

/-- What a line leaves in the buffer: it is dropped as often as it outgrows it. -/
def lineTail (l : List UInt8) : List UInt8 := l.drop ((maxLine + 1) * (l.length / (maxLine + 1)))

/-! ### One line, one reply -/

/-- **What the device sends for a line of any length**: a reply each time the line
outgrows the buffer, and one for what is left of it, which is handled as a line. -/
theorem replies_of_line (pf : Platform) (r : Readings) (n : ℕ) :
    ∀ {l rest : List UInt8} {s : Link}, l.length = n → NoNewline l → s.device = [] →
      s.toDevice = l ++ 10 :: rest → (handleLine pf r (lineTail l)).isSome →
      ∃ t, run (step pf) s (List.replicate (n + 1) (.deviceByte r)) = some t ∧
        t.toDevice = rest ∧ t.device = [] ∧ t.requests = s.requests ∧
        t.replies.length = s.replies.length + (n + maxLine) / (maxLine + 1) ∧
        t.handled = s.handled ++ if lineTail l = [] then [] else [(lineTail l, r)] := by
  -- a full buffer answers for itself, and leaves a shorter line
  induction n using Nat.strong_induction_on with
  | _ n ih =>
    intro l rest s hlen hl hdevice hdev htail
    subst hlen
    by_cases hshort : l.length ≤ maxLine
    · -- the line fits the buffer
      have hwhole : lineTail l = l := by
        rw [lineTail, Nat.div_eq_of_lt (by omega), Nat.mul_zero, List.drop_zero]
      have hcollect := run_collect pf r hl hdev (by simp [hdevice]; exact hshort)
      rw [hdevice, List.nil_append] at hcollect
      rw [hwhole] at htail ⊢
      obtain ⟨reply, hreply⟩ := Option.isSome_iff_exists.mp htail
      rw [List.replicate_succ', run_append, hcollect, Option.bind_some]
      by_cases hnil : l = []
      · subst hnil
        refine ⟨_, rfl, rfl, rfl, rfl, ?_, ?_⟩
        · simp [maxLine]
        · simp
      · have hbyte : onByte pf r l 10 = some ([], some l, some reply) := by
          rw [onByte, if_pos (by decide), if_neg hnil, hreply]
          rfl
        have hpos := List.length_pos_of_ne_nil hnil
        refine ⟨_, run_cons_of_step (step_deviceByte rfl hbyte) [], rfl, rfl, rfl, ?_, ?_⟩
        · have hone : (l.length + maxLine) / (maxLine + 1) = 1 := by
            rw [maxLine] at hshort ⊢
            omega
          simp [hone]
        · simp [hnil]
    · -- the buffer is full when a byte more comes
      have hmax : l.take maxLine ++ l.drop maxLine = l := List.take_append_drop maxLine l
      obtain ⟨b, l', hb⟩ := List.exists_cons_of_ne_nil
        (show l.drop maxLine ≠ [] by rw [ne_eq, List.drop_eq_nil_iff]; omega)
      have htake : (l.take maxLine).length = maxLine := by
        rw [List.length_take]
        omega
      have hlen' : l.length = maxLine + (l'.length + 1) := by
        rw [← hmax, hb, List.length_append, htake, List.length_cons]
      have hmem : ∀ c ∈ b :: l', c ∈ l := fun c hc => List.mem_of_mem_drop (hb ▸ hc)
      have hchunk : NoNewline (l.take maxLine) := fun c hc => hl c (List.mem_of_mem_take hc)
      have hdev' : s.toDevice = l.take maxLine ++ (b :: l' ++ 10 :: rest) := by
        rw [hdev, ← List.append_assoc, ← hb, hmax]
      have hcollect := run_collect pf r hchunk hdev' (by simp [hdevice, htake])
      rw [hdevice, List.nil_append, htake] at hcollect
      have hbyte : onByte pf r (l.take maxLine) b =
          some ([], none, some (replyErr "request line too long")) := by
        rw [onByte, if_neg (by simp [hl b (hmem b (by simp))]), if_neg (by omega)]
      -- a buffer and the byte that does not fit are one reply
      have hquot : l.length / (maxLine + 1) = l'.length / (maxLine + 1) + 1 := by
        rw [hlen', show maxLine + (l'.length + 1) = l'.length + (maxLine + 1) by omega,
          Nat.add_div_right _ (show 0 < maxLine + 1 by omega)]
      have htail' : lineTail l = lineTail l' := by
        rw [lineTail, lineTail, hquot]
        have hdrop : l.drop (maxLine + 1) = l' := by
          rw [← List.drop_drop, hb]
          rfl
        rw [Nat.mul_add, Nat.mul_one, Nat.add_comm, ← List.drop_drop, hdrop]
      rw [htail'] at htail ⊢
      have hrun : ∃ s₁, run (step pf) s (List.replicate (maxLine + 1) (.deviceByte r)) = some s₁ ∧
          s₁.device = [] ∧ s₁.toDevice = l' ++ 10 :: rest ∧ s₁.requests = s.requests ∧
          s₁.handled = s.handled ∧ s₁.replies.length = s.replies.length + 1 := by
        rw [List.replicate_succ', run_append, hcollect, Option.bind_some]
        refine ⟨_, run_cons_of_step (step_deviceByte rfl hbyte) [], rfl, rfl, rfl, ?_, ?_⟩
        · simp
        · simp
      obtain ⟨s₁, hs₁, hdevice₁, hdev₁, hreq₁, hhandled₁, hreplies₁⟩ := hrun
      obtain ⟨t, ht, h1, h2, h3, h4, h5⟩ := ih l'.length (by omega) rfl
        (fun c hc => hl c (hmem c (List.mem_cons_of_mem b hc))) hdevice₁ hdev₁ htail
      refine ⟨t, ?_, h1, h2, h3.trans hreq₁, ?_, by rw [h5, hhandled₁]⟩
      · rw [show l.length + 1 = (maxLine + 1) + (l'.length + 1) by omega, List.replicate_add,
          run_append, hs₁, Option.bind_some, ht]
      · rw [h4, hreplies₁, hlen',
          show maxLine + (l'.length + 1) + maxLine = (l'.length + maxLine) + (maxLine + 1) by omega,
          Nat.add_div_right _ (show 0 < maxLine + 1 by omega)]
        omega

/-- A request is answered once exactly if it fits the buffer. -/
theorem one_reply_iff {bytes : List UInt8} :
    ((requestLine bytes).length + maxLine) / (maxLine + 1) = 1 ↔
      bytes ≠ [] ∧ bytes.length ≤ 4096 := by
  rw [requestLine, Hex.length_utf8_encode, ← List.length_pos_iff, maxLine]
  omega

/-- The wire form of a string is eight bytes longer than the string. -/
theorem toBytes_constProgram_str (text : String) (hmin : 128 ≤ (utf8 text).length)
    (hmax : (utf8 text).length < 16384) :
    ∃ bytes, constPlatform.toBytes (constProgram (.str text)) = .ok bytes ∧
      bytes.length = (utf8 text).length + 8 := by
  have henc : encodeConst (.str text) = .ok (3 :: UInt8.ofNat ((utf8 text).length % 128 + 128) ::
      UInt8.ofNat ((utf8 text).length / 128) :: utf8 text) := by
    rw [encodeConst, if_pos ⟨hmin, hmax⟩]
  refine ⟨_, by simp only [constPlatform, constProgram, henc]; rfl, ?_⟩
  simp

/-! ### A program that is too long -/

/-- The program that returns a text of 4096 letters. -/
def longProgram : Program := constProgram (.str (String.ofList (List.replicate 4096 'a')))

/-- **A program too long for the line is answered twice**, and a piece of its request
is handled as a request. -/
theorem push_long_program :
    ∃ evs s, run (step constPlatform) (start [longProgram]) evs = some s ∧
      s.requests.length = 1 ∧ s.replies.length = 2 ∧
      ¬ s.handled.map Prod.fst <+: s.requests := by
  have hletters : (utf8 (String.ofList (List.replicate 4096 'a'))).length = 4096 := by
    rw [utf8_ascii fun c hc => by rw [List.eq_of_mem_replicate hc]; decide, List.length_map,
      List.length_replicate]
  obtain ⟨bytes, hbytes, hlen⟩ := toBytes_constProgram_str
    (String.ofList (List.replicate 4096 'a')) (by omega) (by omega)
  rw [hletters] at hlen
  have hline : (requestLine bytes).length = 8208 := by
    rw [requestLine, Hex.length_utf8_encode, hlen]
  have htail : (lineTail (requestLine bytes)).length = 15 := by
    rw [lineTail, List.length_drop, hline, maxLine]
  -- a piece of odd length is not hexadecimal
  have hhandle : ∀ r, (handleLine constPlatform r (lineTail (requestLine bytes))).isSome := by
    intro r
    rw [handleLine, Hex.decode, htail, if_pos (by decide)]
    rfl
  let r : Readings := ⟨0, 0, 0⟩
  obtain ⟨t, ht, -, -, hreq, hrep, hhandled⟩ :=
    replies_of_line constPlatform r 8208
      (s := { start [longProgram] with
        todo := [], waiting := some [], toDevice := requestLine bytes ++ [10],
        requests := [requestLine bytes] })
      hline (noNewline_requestLine bytes) rfl rfl (hhandle r)
  have hcall : step constPlatform (start [longProgram]) .call =
      some { start [longProgram] with
        todo := [], waiting := some [], toDevice := requestLine bytes ++ [10],
        requests := [requestLine bytes] } := by
    exact step_call rfl rfl hbytes
  refine ⟨_, t, (run_cons_of_step hcall _).trans ht, ?_, ?_, ?_⟩
  · rw [hreq]
    rfl
  · rw [hrep, maxLine]
    rfl
  · have hne : lineTail (requestLine bytes) ≠ [] := by
      rw [← List.length_pos_iff, htail]
      decide
    rw [hhandled, hreq, if_neg hne]
    show ¬ [lineTail (requestLine bytes)] <+: [requestLine bytes]
    intro hprefix
    have heq := (List.cons_prefix_cons.mp hprefix).1
    have := congrArg List.length heq
    rw [htail, hline] at this
    omega

end Serial
