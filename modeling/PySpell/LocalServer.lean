/-
# The two HTTP servers

`local_server.rs` serves the routes of the in-tunnel server on the local network.  It
reads a request until its headers end, hands the header block to `parse_range`, and
streams the body of the reply in chunks of its own; the in-tunnel server hands the
whole segment to `parse_range`, and its pump reads the response in segments.

`Outline` is what a client sees of a response: the status, the `Content-Length`, the
`Content-Range` and the body.  Both servers give the outline of the slice that their
view of the request asks for (`outline_streamReply`, `outline_tunnelResponse`), so
they agree exactly when the views ask for the same.
-/
import PySpell.TcpStream
import PySpell.Lib.Search

open Text Http

namespace Http

/-! ## Reading a body to its end -/

/-- Reads in pieces, from an offset up to another, in at most so many steps.  A read
that gives nothing ends it. -/
def drain (read : ℕ → ℕ → List UInt8) (chunk : ℕ) : ℕ → ℕ → ℕ → List UInt8
  | 0, _, _ => []
  | fuel + 1, off, stop =>
    if stop ≤ off then []
    else
      let got := read off (min (stop - off) chunk)
      if got.length = 0 then []
      else got ++ drain read chunk fuel (off + got.length) stop

/-- Reads that give the bytes of `f` at their offset, and something before `stop`. -/
structure ReadsAt (read : ℕ → ℕ → List UInt8) (f : ℕ → UInt8) (stop : ℕ) : Prop where
  length_le : ∀ off want, (read off want).length ≤ want
  bytesAt : ∀ off want, BytesAt (read off want) f off
  ne_nil : ∀ off want, off < stop → 0 < want → read off want ≠ []

/-- **Draining gives all the bytes**, however they are cut into pieces. -/
theorem drain_spec {read : ℕ → ℕ → List UInt8} {f : ℕ → UInt8} {stop chunk : ℕ}
    (h : ReadsAt read f stop) (hchunk : 0 < chunk) (fuel : ℕ) :
    ∀ off : ℕ, stop - off ≤ fuel →
      (drain read chunk fuel off stop).length = stop - off ∧
        BytesAt (drain read chunk fuel off stop) f off := by
  induction fuel with
  | zero =>
    intro off hfuel
    exact ⟨by simp [drain]; omega, fun i hi => by simp [drain] at hi⟩
  | succ fuel ih =>
    intro off hfuel
    rw [drain]
    by_cases hstop : stop ≤ off
    · rw [if_pos hstop]
      exact ⟨by simp; omega, fun i hi => by simp at hi⟩
    · rw [if_neg hstop]
      have hle := h.length_le off (min (stop - off) chunk)
      have hbytes := h.bytesAt off (min (stop - off) chunk)
      have hpos := List.length_pos_of_ne_nil
        (h.ne_nil off (min (stop - off) chunk) (by omega) (by omega))
      dsimp only
      generalize read off (min (stop - off) chunk) = got at hle hbytes hpos ⊢
      rw [if_neg (by omega)]
      obtain ⟨hlen, hrest⟩ := ih (off + got.length) (by omega)
      exact ⟨by rw [List.length_append, hlen]; omega, bytesAt_append hbytes hrest⟩

/-- The bytes of a function from an offset on. -/
def bytesFrom (f : ℕ → UInt8) (off len : ℕ) : List UInt8 :=
  (List.range len).map fun i => f (off + i)

theorem eq_bytesFrom {l : List UInt8} {f : ℕ → UInt8} {off len : ℕ} (hlen : l.length = len)
    (h : BytesAt l f off) : l = bytesFrom f off len := by
  apply List.ext_getElem
  · rw [hlen, bytesFrom, List.length_map, List.length_range]
  · intro i hi _
    simp only [bytesFrom, List.getElem_map, List.getElem_range]
    exact h i hi

/-- The body can be read: a `FlashReader` fills some of the buffer before its end. -/
def BodySource.Fills : BodySource → Prop
  | static _ => True
  | owned _ => True
  | flash reader len => ∀ off want, off < len → 0 < want → reader.readAt off want ≠ []

theorem BodySource.readsAt {s : BodySource} (h : s.Fills) :
    ReadsAt s.readAt s.byteAt s.totalLen where
  length_le off want := (s.readAt_spec off want).1
  bytesAt off want := (s.readAt_spec off want).2
  ne_nil off want hoff hwant := by
    have hcopy : ∀ bytes : List UInt8, off < bytes.length → copyClamped bytes off want ≠ [] := by
      intro bytes hlt
      apply List.ne_nil_of_length_pos
      rw [copyClamped, List.length_take, List.length_drop]
      omega
    cases s with
    | static bytes => exact hcopy bytes hoff
    | owned bytes => exact hcopy bytes hoff
    | flash reader len =>
      have hoff' : off < len := hoff
      rw [BodySource.readAt, if_neg (by omega)]
      exact h off _ hoff' (by omega)

namespace RespState

/-- The response as the pump reads it, a segment at a time. -/
def stream (r : RespState) : List UInt8 := drain r.read Tcp.mss (r.totalLen + 1) 0 r.totalLen

theorem readsAt {r : RespState} (h : r.source.Fills) : ReadsAt r.read r.byteAt r.totalLen where
  length_le abs want := (r.read_spec abs want).1
  bytesAt abs want := (r.read_spec abs want).2
  ne_nil abs want habs hwant := by
    have hhdr := r.hdrLen_eq
    have hslice := r.slice_le
    unfold read
    by_cases hhead : abs < r.hdrLen
    · rw [if_pos hhead]
      have hne : (r.headers.drop abs).take (min (r.hdrLen - abs) want) ≠ [] := by
        apply List.ne_nil_of_length_pos
        rw [List.length_take, List.length_drop]
        omega
      dsimp only
      split_ifs
      · exact hne
      · exact List.append_ne_nil_of_left_ne_nil hne _
      · exact hne
    · rw [if_neg hhead]
      dsimp only
      rw [if_neg (fun hc => hhead hc.1), if_pos ⟨by simp; omega, by simp; omega⟩, List.nil_append]
      exact (BodySource.readsAt h).ne_nil _ _ (by simp; omega) (by simpa using hwant)

/-- **The stream is the headers and the slice of the body.** -/
theorem stream_eq {r : RespState} (h : r.source.Fills) (hhdr : r.hdrLen ≤ r.totalLen) :
    r.stream = r.headers ++ bytesFrom r.source.byteAt r.bodyBase (r.totalLen - r.hdrLen) := by
  obtain ⟨hlen, hbytes⟩ := drain_spec (readsAt h) (by decide : 0 < Tcp.mss)
    (r.totalLen + 1) 0 (by omega)
  have hr := r.hdrLen_eq
  rw [stream, eq_bytesFrom hlen hbytes]
  symm
  apply eq_bytesFrom
  · rw [List.length_append, bytesFrom, List.length_map, List.length_range]
    omega
  · apply bytesAt_append
    · intro i hi
      rw [byteAt, if_pos (by omega), Nat.zero_add, getD_eq_getElem _ hi]
    · intro i hi
      rw [bytesFrom, List.length_map, List.length_range] at hi
      simp only [bytesFrom, List.getElem_map, List.getElem_range]
      rw [byteAt, if_neg (by omega)]
      congr 1
      omega

end RespState

end Http

/-! ## The pump sends the stream -/

namespace Conn

open Tcp

/-- With a window over the whole response, the pump drains it. -/
theorem pumpLoop_drain {r : RespState} (hsmall : r.totalLen < 2 ^ 31) {window : ℕ}
    (hwindow : r.totalLen ≤ window) (now fuel : ℕ) :
    ∀ {c : Conn}, c.resp = some r → c.off c.sndNxt < 2 ^ 31 →
      ((c.pumpLoop now window r.totalLen fuel).2.map fun x => payloadOf x.packet).flatten =
        drain r.read mss fuel (c.off c.sndNxt) r.totalLen := by
  induction fuel with
  | zero => exact fun _ _ => rfl
  | succ fuel ih =>
    intro c hr hnxt
    have hsent : c.sentBytes = min (c.off c.sndNxt) r.totalLen := bytesBefore_eq hr hnxt
    have hedge : min (c.ackedBytes + window) r.totalLen = r.totalLen := by omega
    rw [pumpLoop, drain]
    dsimp only
    rw [hedge]
    -- the whole response is sent
    by_cases hstop : r.totalLen ≤ c.off c.sndNxt
    · rw [if_pos hstop, if_pos (by omega)]
      rfl
    · have hnext : c.sentBytes = c.off c.sndNxt := by omega
      rw [hnext, if_neg hstop, if_neg hstop]
      have hread : c.readResponse (c.off c.sndNxt) (min (r.totalLen - c.off c.sndNxt) mss) =
          r.read (c.off c.sndNxt) (min (r.totalLen - c.off c.sndNxt) mss) := by
        rw [readResponse, hr, Option.elim_some]
      have hle := (r.read_spec (c.off c.sndNxt) (min (r.totalLen - c.off c.sndNxt) mss)).1
      rw [hread]
      generalize r.read (c.off c.sndNxt) _ = bytes at hle ⊢
      -- the source has nothing more
      by_cases hn : bytes.length = 0
      · rw [if_pos hn, if_pos hn]
        rfl
      · rw [if_neg hn, if_neg hn]
        have hadd : c.off (c.sndNxt + UInt32.ofNat bytes.length) = c.off c.sndNxt + bytes.length :=
          SeqNumber.offset_add (by change c.off c.sndNxt + bytes.length < 2 ^ 32; omega)
        by_cases hlast : r.totalLen ≤ c.off c.sndNxt + bytes.length
        · -- the last segment, behind which nothing is left to drain
          rw [if_pos hlast]
          have hnil : drain r.read mss fuel (c.off c.sndNxt + bytes.length) r.totalLen = [] := by
            cases fuel with
            | zero => rfl
            | succ fuel => rw [drain, if_pos hlast]
          rw [hnil]
          simp [send, payloadOf_segment]
        · rw [if_neg hlast]
          -- the rest is drained from the next position
          have hrest := ih (c := { c with
              sndNxt := c.sndNxt + UInt32.ofNat bytes.length, lastSendMs := now }) hr
            (by change c.off (c.sndNxt + UInt32.ofNat bytes.length) < 2 ^ 31; omega)
          change _ = drain r.read mss fuel (c.off (c.sndNxt + UInt32.ofNat bytes.length)) _ at hrest
          rw [hadd] at hrest
          simp only [List.map_cons, List.flatten_cons, hrest, send, payloadOf_segment]

/-- Without a window, the data of the segments is what is left of the response. -/
theorem pump_drain {c : Conn} {r : RespState} (hr : c.resp = some r)
    (hsmall : r.totalLen < 2 ^ 31) (hnxt : c.off c.sndNxt < 2 ^ 31) (now : ℕ) :
    ((c.pump now (2 ^ 32 - 1)).2.map fun x => payloadOf x.packet).flatten =
      drain r.read mss (r.totalLen + 1) (c.off c.sndNxt) r.totalLen := by
  rw [pump, hr]
  dsimp only
  rw [pumpLoop_fuel hsmall now _ pumpFuel (m := r.totalLen + 1) hr hnxt
    (by rw [pumpFuel]; omega) (by omega), pumpLoop_drain hsmall (by omega) now _ hr hnxt]

/-- **The pump sends the stream**: from the start of a response, with the window of
`blast`, the data of the segments is the stream. -/
theorem pump_stream {c : Conn} {r : RespState} (hr : c.resp = some r)
    (hsmall : r.totalLen < 2 ^ 31) (hstart : c.sndNxt = c.iss + 1) (now : ℕ) :
    ((c.pump now (2 ^ 32 - 1)).2.map fun x => payloadOf x.packet).flatten = r.stream := by
  have hzero : c.off c.sndNxt = 0 := SeqNumber.offset_eq_zero.mpr hstart
  rw [pump_drain hr hsmall (by omega), hzero, RespState.stream]

end Conn

namespace LocalServer

/-! ## Reading a request -/

def maxHeader : ℕ := 8192

/-- The end of the headers. -/
def terminator : List UInt8 := [13, 10, 13, 10]

/-- `find`. -/
def find (hay needle : List UInt8) : Option ℕ := Search.position needle hay

/-- The loop that reads until the headers end, in at most so many reads: where they
end, what was read, and what was not.  The segment is there as a whole, so a read
fills its buffer as far as there are bytes left; then the connection is silent. -/
def readHeaders : ℕ → List UInt8 → List UInt8 → Option (ℕ × List UInt8 × List UInt8)
  | 0, _, _ => none
  | fuel + 1, buf, rest =>
    if rest = [] then none
    else
      let buf := buf ++ rest.take 1024
      match find buf terminator with
      | some p => some (p, buf, rest.drop 1024)
      | none => if maxHeader < buf.length then none else readHeaders fuel buf (rest.drop 1024)

/-- The loop that tops the body up to its `Content-Length`. -/
def topUp (contentLen : ℕ) : ℕ → List UInt8 → List UInt8 → List UInt8
  | 0, body, _ => body
  | fuel + 1, body, rest =>
    if body.length < contentLen ∧ rest ≠ [] then
      topUp contentLen fuel (body ++ rest.take 1024) (rest.drop 1024)
    else body

/-- The lines of a text. -/
def linesOf (s : String) : List String :=
  (Split.pieces (Split.str "\r\n".toList) s.toList).map String.ofList

/-- The `Content-Length` of a request: its last line of that name. -/
def contentLength (lines : List String) : ℕ :=
  lines.foldl (fun n line =>
    match stripPrefix (line.map Char.toLower) "content-length:" with
    | some v => (Http.parseUsize (trim v)).getD 0
    | none => n) 0

/-- What `handle` reads of a request. -/
structure Request where
  head : String
  method : String
  path : String
  query : String
  body : List UInt8

/-- The first half of `handle`; `none` when the connection is dropped. -/
def readRequest (segment : List UInt8) : Option Request :=
  (readHeaders (segment.length + 1) [] segment).map fun (p, buf, rest) =>
    let head := fromUtf8Lossy (buf.take p)
    let lines := linesOf head
    let parts := splitChar ' ' (lines.headD "")
    let target := parts.getD 1 "/"
    let (path, query) := (splitOnce '?' target).getD (target, "")
    { head := head
      method := parts.getD 0 "GET"
      path := path
      query := query
      body := topUp (contentLength lines.tail) (rest.length + 1) (buf.drop (p + 4)) rest }

/-! ## Answering it -/

/-- A response: what was chosen, and the bytes of its head and its body. -/
structure Response where
  status : ℕ
  contentLength : ℕ
  contentRange : Option String
  head : List UInt8
  body : List UInt8

/-- `write_full`. -/
def writeFull (status : ℕ) (contentType : String) (body : List UInt8) : List UInt8 :=
  let reason := if status = 404 then "404 Not Found" else "200 OK"
  let len := body.length
  utf8 s!"HTTP/1.1 {reason}\r\nContent-Type: {contentType}\r\nContent-Length: {len}\r\nConnection: close\r\nAccess-Control-Allow-Origin: *\r\n\r\n" ++ body

/-- `stream_reply`. -/
def streamReply (reply : HttpReply) (reqHeaders : List UInt8) : Response :=
  let total := reply.source.totalLen
  match parseRange reqHeaders total with
  | .error () =>
    { status := 416
      contentLength := 0
      contentRange := some s!"bytes */{total}"
      head := utf8 s!"HTTP/1.1 416 Range Not Satisfiable\r\nContent-Range: bytes */{total}\r\nContent-Length: 0\r\nConnection: close\r\nAccess-Control-Allow-Origin: *\r\nAccept-Ranges: bytes\r\n\r\n"
      body := [] }
  | .ok range =>
    let (status, base, len) := match range with
      | none => (200, 0, total)
      | some (a, b) => (206, a, b - a + 1)
    let reason := if status = 206 then "206 Partial Content" else "200 OK"
    let contentType := reply.contentType
    let last := base + len - 1
    let fixed := s!"HTTP/1.1 {reason}\r\nContent-Type: {contentType}\r\nContent-Length: {len}\r\nConnection: close\r\nAccess-Control-Allow-Origin: *\r\nAccept-Ranges: bytes\r\n"
    let cache := match reply.cacheControl with
      | some cc => s!"Cache-Control: {cc}\r\n"
      | none => ""
    let contentRange := if status = 206 then some s!"bytes {base}-{last}/{total}" else none
    let line := match contentRange with
      | some value => s!"Content-Range: {value}\r\n"
      | none => ""
    { status := status
      contentLength := len
      contentRange := contentRange
      head := utf8 (fixed ++ cache ++ line ++ "\r\n")
      body := drain reply.source.readAt 2048 len base (base + len) }

/-- The answer of a pool whose threads are too thin for a fetch. -/
def fetchRefused : List UInt8 :=
  utf8 ("error: fetch_json is not available on the parallel LAN pool (thin stacks); " ++
    "use the in-tunnel server\n")

/-- `handle`: the bytes that are written to the connection. -/
def handle (allowFetch : Bool) (route : RouteFn) (segment : List UInt8) : List UInt8 :=
  match readRequest segment with
  | none => []
  | some r =>
    if !allowFetch && r.path = "/run" && (find r.body (utf8 "fetch")).isSome then
      writeFull 200 "text/plain; charset=utf-8" fetchRefused
    else
      match route r.method r.path r.query r.body with
      | some reply =>
        let response := streamReply reply (utf8 r.head)
        response.head ++ response.body
      | none => writeFull 404 "text/plain; charset=utf-8" (utf8 "not found\n")

/-- The response of this server to a request for which the handler gives a reply. -/
def respond (reply : HttpReply) (segment : List UInt8) : Option Response :=
  (readRequest segment).map fun r => streamReply reply (utf8 r.head)

/-- The value of `Content-Range` for a slice, as `render_headers` writes it. -/
def contentRangeOf (status base len total : ℕ) : Option String :=
  let last := base + len - 1
  if status = 206 then some s!"bytes {base}-{last}/{total}"
  else if status = 416 then some s!"bytes */{total}"
  else none

/-- The response of the in-tunnel server: `build_response`, and the stream of it. -/
def tunnelRespond (reply : HttpReply) (segment : List UInt8) : Response :=
  let total := reply.source.totalLen
  let slice := chooseSlice reply.status segment total
  let r := stageResponse reply segment
  { status := slice.status
    contentLength := slice.len
    contentRange := contentRangeOf slice.status slice.base slice.len total
    head := r.headers
    body := r.stream.drop r.hdrLen }

/-- What the two servers are to agree on. -/
structure Outline where
  status : ℕ
  contentLength : ℕ
  contentRange : Option String
  body : List UInt8

def Response.outline (r : Response) : Outline :=
  ⟨r.status, r.contentLength, r.contentRange, r.body⟩

/-! ## What the heads say -/

/-- A head that consists of these lines. -/
def headOf : List String → String
  | [] => "\r\n"
  | line :: lines => line ++ "\r\n" ++ headOf lines

/-- **The head says what was chosen**: it has a line with the status, one with the length, and
one with the range when there is a range; the other lines name neither. -/
def Response.Says (r : Response) : Prop :=
  ∃ reason : String, ∃ lines others : List String, r.head = utf8 (headOf lines) ∧
    lines.Perm (s!"HTTP/1.1 {r.status} {reason}" :: s!"Content-Length: {r.contentLength}" ::
      ((r.contentRange.map fun value => s!"Content-Range: {value}").toList ++ others)) ∧
    ∀ line ∈ others, ¬ "Content-Length: ".toList <+: line.toList ∧
      ¬ "Content-Range: ".toList <+: line.toList

/-- The lines that both servers write besides. -/
def otherLines (reply : HttpReply) : List String :=
  s!"Content-Type: {reply.contentType}" :: "Connection: close" ::
    "Access-Control-Allow-Origin: *" :: "Accept-Ranges: bytes" ::
      (reply.cacheControl.map fun cc => s!"Cache-Control: {cc}").toList

theorem otherLines_name (reply : HttpReply) : ∀ line ∈ otherLines reply,
    ¬ "Content-Length: ".toList <+: line.toList ∧ ¬ "Content-Range: ".toList <+: line.toList := by
  intro line hline
  simp only [otherLines, List.mem_cons, Option.mem_toList,
    Option.map_eq_some_iff] at hline
  rcases hline with rfl | rfl | rfl | rfl | ⟨cc, -, rfl⟩
  · constructor <;> simp [toString]
  · decide
  · decide
  · decide
  · constructor <;> simp [toString]

/-- The lines of a response, in the order of `render_headers`. -/
def headLines (reply : HttpReply) (reason : String) (r : Response) : List String :=
  s!"HTTP/1.1 {r.status} {reason}" :: s!"Content-Type: {reply.contentType}" ::
    s!"Content-Length: {r.contentLength}" :: "Connection: close" ::
      "Access-Control-Allow-Origin: *" :: "Accept-Ranges: bytes" ::
        ((reply.cacheControl.map fun cc => s!"Cache-Control: {cc}").toList ++
          (r.contentRange.map fun value => s!"Content-Range: {value}").toList)

theorem says_headLines {reply : HttpReply} {reason : String} {r : Response}
    (h : r.head = utf8 (headOf (headLines reply reason r))) : r.Says := by
  refine ⟨reason, headLines reply reason r, otherLines reply, h, ?_, otherLines_name reply⟩
  rw [List.perm_iff_count]
  intro line
  simp only [headLines, otherLines, List.count_cons, List.count_append]
  omega

/-- The texts of the headers, cut into lines. -/
theorem header_texts :
    "\r\nContent-Type: " = "\r\n" ++ "Content-Type: " ∧
    "\r\nContent-Length: " = "\r\n" ++ "Content-Length: " ∧
    "Content-Range: bytes " = "Content-Range: " ++ "bytes " ∧
    "Content-Range: bytes */" = "Content-Range: " ++ "bytes */" ∧
    "\r\nConnection: close\r\nAccess-Control-Allow-Origin: *\r\nAccept-Ranges: bytes\r\n" =
      "\r\n" ++ ("Connection: close" ++ ("\r\n" ++ ("Access-Control-Allow-Origin: *" ++ ("\r\n" ++
        ("Accept-Ranges: bytes" ++ "\r\n"))))) := by decide

/-- Headers of `render_headers` say what the fields say. -/
theorem says_of_renderHeaders {reply : HttpReply} {r : Response} {base total : ℕ}
    (hhead : r.head = renderHeaders r.status reply.contentType base r.contentLength total
      reply.cacheControl)
    (hrange : r.contentRange = contentRangeOf r.status base r.contentLength total) : r.Says := by
  obtain ⟨htype, hlength, hpart, hnone, hfixed⟩ := header_texts
  refine @says_headLines reply (if r.status = 206 then "Partial Content"
    else if r.status = 416 then "Range Not Satisfiable" else "OK") r ?_
  rw [hhead, headLines, hrange]
  unfold renderHeaders contentRangeOf
  dsimp only
  rw [htype, hlength, hpart, hnone, hfixed]
  cases reply.cacheControl <;> split_ifs <;>
    simp only [headOf, toString, String.append_assoc, Option.map_some, Option.map_none,
      Option.toList_some, Option.toList_none, List.nil_append, List.cons_append,
      String.append_empty]

/-- **The head that the in-tunnel server writes says what it chose.** -/
theorem says_tunnelRespond (reply : HttpReply) (segment : List UInt8) :
    (tunnelRespond reply segment).Says := by
  let slice := chooseSlice reply.status segment reply.source.totalLen
  have hhead : (tunnelRespond reply segment).head = renderHeaders slice.status reply.contentType
      slice.base slice.len reply.source.totalLen reply.cacheControl := by
    rw [tunnelRespond, stageResponse]
  exact says_of_renderHeaders hhead rfl

/-- **So does the head of the server on the local network.** -/
theorem says_streamReply (reply : HttpReply) (view : List UInt8) :
    (streamReply reply view).Says := by
  have hwhole : "200 OK" = toString 200 ++ " " ++ "OK" := by decide
  have hpart : "206 Partial Content" = toString 206 ++ " " ++ "Partial Content" := by decide
  have hfirst : "HTTP/1.1 416 Range Not Satisfiable\r\nContent-Range: bytes */" =
      "HTTP/1.1 416 Range Not Satisfiable" ++ ("\r\n" ++ "Content-Range: bytes */") := by decide
  have hrest : "\r\nContent-Length: 0\r\nConnection: close\r\nAccess-Control-Allow-Origin: *\r\nAccept-Ranges: bytes\r\n\r\n" =
      "\r\n" ++ ("Content-Length: 0" ++ ("\r\n" ++ ("Connection: close" ++ ("\r\n" ++
        ("Access-Control-Allow-Origin: *" ++ ("\r\n" ++ ("Accept-Ranges: bytes" ++
          ("\r\n" ++ "\r\n")))))))) := by decide
  unfold streamReply
  dsimp only
  cases parseRange view reply.source.totalLen with
  | error e =>
    refine ⟨"Range Not Satisfiable", ["HTTP/1.1 416 Range Not Satisfiable",
      s!"Content-Range: bytes */{reply.source.totalLen}", "Content-Length: 0", "Connection: close",
      "Access-Control-Allow-Origin: *", "Accept-Ranges: bytes"], ["Connection: close",
      "Access-Control-Allow-Origin: *", "Accept-Ranges: bytes"], ?_, ?_, ?_⟩
    · dsimp only
      rw [hfirst, hrest]
      simp only [headOf, toString, String.append_assoc]
    · have hrange : "Content-Range: bytes */" = "Content-Range: " ++ "bytes */" := by decide
      rw [hrange]
      simp only [toString, String.append_assoc]
      exact .cons _ (.swap _ _ _)
    · decide
  | ok range =>
    cases range with
    | none =>
      refine @says_of_renderHeaders reply _ 0 reply.source.totalLen ?_ rfl
      unfold renderHeaders
      dsimp only
      rw [if_neg (by decide), if_neg (by decide), hwhole]
      rfl
    | some range =>
      obtain ⟨a, b⟩ := range
      refine @says_of_renderHeaders reply _ a reply.source.totalLen ?_ rfl
      unfold renderHeaders
      dsimp only
      rw [if_pos rfl, if_pos rfl, if_pos rfl, hpart]
      rfl

/-! ## Requests that are answered -/

/-- What `handle` writes for a request that the handler answers. -/
theorem handle_eq {route : RouteFn} {segment : List UInt8} {r : Request} {reply : HttpReply}
    (hread : readRequest segment = some r)
    (hroute : route r.method r.path r.query r.body = some reply) :
    (respond reply segment).map (fun out => out.head ++ out.body) =
      some (handle true route segment) := by
  rw [respond, hread, handle, hread]
  dsimp only [Option.map_some]
  rw [hroute]
  rfl

/-- What the in-tunnel server stages for a request that the handler answers. -/
theorem buildResponse_resp {s : TcpServer} {route : RouteFn} {segment : List UInt8}
    {reply : HttpReply} {method path query : String} (hhandler : s.handler = some route)
    (htarget : Tcp.requestTarget segment = (method, path, query))
    (hroute : route method path query (httpBody segment) = some reply) :
    (s.buildResponse segment).conn.resp = some (stageResponse reply segment) := by
  rw [TcpServer.buildResponse, TcpServer.routeRequest, htarget, hhandler]
  dsimp only [Option.bind_some]
  rw [hroute]

/-! ## The range that a server sees -/

/-- The range that `parse_range` finds in some bytes. -/
def rangeSeen (bytes : List UInt8) : Option String :=
  match fromUtf8 bytes with
  | .error _ => none
  | .ok text => rangeSpec (linesOf text)

/-- What `parse_range` makes of it. -/
def boundsOf (seen : Option String) (total : ℕ) : Except Unit (Option (ℕ × ℕ)) :=
  match seen with
  | none => .ok none
  | some spec =>
    if total = 0 then .error ()
    else
      match rangeBounds (trim ((splitChar ',' spec).headD "")) total with
      | some bounds => .ok (some bounds)
      | none => .error ()

theorem parseRange_eq (bytes : List UInt8) (total : ℕ) :
    parseRange bytes total = boundsOf (rangeSeen bytes) total := by
  rw [parseRange, rangeSeen]
  cases fromUtf8 bytes with
  | error n => rfl
  | ok text =>
    dsimp only
    rw [linesOf]
    cases rangeSpec ((Split.pieces (Split.str "\r\n".toList) text.toList).map String.ofList) with
    | none => rfl
    | some spec =>
      cases h : rangeBounds (trim ((splitChar ',' spec).headD "")) total with
      | none => simp only [boundsOf, h]
      | some bounds => simp only [boundsOf, h]

theorem rangeSeen_utf8 (s : String) : rangeSeen (utf8 s) = rangeSpec (linesOf s) := by
  rw [rangeSeen, fromUtf8_utf8]

/-- Two views with the same range give the same slice. -/
theorem chooseSlice_congr {status total : ℕ} {bytes bytes' : List UInt8}
    (h : rangeSeen bytes = rangeSeen bytes') :
    chooseSlice status bytes total = chooseSlice status bytes' total := by
  have hparse : parseRange bytes total = parseRange bytes' total := by
    rw [parseRange_eq, parseRange_eq, h]
  rcases chooseSlice_cases status bytes total with ⟨h1, e1⟩ | ⟨a, b, _, h1, e1⟩ | ⟨h1, e1⟩ <;>
  rcases chooseSlice_cases status bytes' total with ⟨h2, e2⟩ | ⟨a', b', _, h2, e2⟩ | ⟨h2, e2⟩ <;>
  rw [e1, e2] <;> rw [h1, h2] at hparse <;> cases hparse
  rfl

/-- The whole body is served exactly if no range is seen. -/
theorem status_chooseSlice (bytes : List UInt8) (total : ℕ) :
    (chooseSlice 200 bytes total).status = 200 ↔ rangeSeen bytes = none := by
  have hbounds : rangeSeen bytes = none ↔ parseRange bytes total = .ok none := by
    rw [parseRange_eq]
    cases rangeSeen bytes with
    | none => exact iff_of_true rfl rfl
    | some spec =>
      refine iff_of_false (by simp) fun h => ?_
      rw [boundsOf] at h
      split at h
      · cases h
      · split at h
        · cases h
        · cases h
  rw [hbounds]
  rcases chooseSlice_cases 200 bytes total with ⟨h1, e1⟩ | ⟨a, b, _, h1, e1⟩ | ⟨h1, e1⟩
  · exact iff_of_true (by rw [e1]) h1
  · exact iff_of_false (by rw [e1]; simp) (by rw [h1]; simp)
  · exact iff_of_false (by rw [e1]; simp) (by rw [h1]; simp)

/-! ## Outlines -/

/-- The outline of a slice of a body. -/
def outlineOf (s : BodySource) (slice : Slice s.totalLen) : Outline :=
  ⟨slice.status, slice.len, contentRangeOf slice.status slice.base slice.len s.totalLen,
    bytesFrom s.byteAt slice.base slice.len⟩

/-- **The in-tunnel server** gives the slice that the whole segment asks for. -/
theorem outline_tunnelRespond {reply : HttpReply} (hfills : reply.source.Fills)
    (segment : List UInt8) : (tunnelRespond reply segment).outline =
      outlineOf reply.source (chooseSlice reply.status segment reply.source.totalLen) := by
  have hsource : (stageResponse reply segment).source = reply.source := rfl
  have hbase : (stageResponse reply segment).bodyBase =
      (chooseSlice reply.status segment reply.source.totalLen).base := rfl
  have htotal : (stageResponse reply segment).totalLen = (stageResponse reply segment).hdrLen +
      (chooseSlice reply.status segment reply.source.totalLen).len := by
    simp only [stageResponse]
  have hhdr := (stageResponse reply segment).hdrLen_eq
  have hstream := RespState.stream_eq (r := stageResponse reply segment)
    (by rw [hsource]; exact hfills) (by rw [htotal]; exact Nat.le_add_right _ _)
  rw [htotal, Nat.add_sub_cancel_left, hsource, hbase] at hstream
  rw [Response.outline, outlineOf, tunnelRespond]
  dsimp only
  rw [hstream, hhdr, List.drop_left]

/-- **The server on the local network** gives the slice that its view asks for. -/
theorem outline_streamReply {reply : HttpReply} (hfills : reply.source.Fills)
    (view : List UInt8) : (streamReply reply view).outline =
      outlineOf reply.source (chooseSlice 200 view reply.source.totalLen) := by
  have hbody : ∀ {base len : ℕ}, base + len ≤ reply.source.totalLen →
      drain reply.source.readAt 2048 len base (base + len) =
        bytesFrom reply.source.byteAt base len := by
    intro base len hle
    have hreads : ReadsAt reply.source.readAt reply.source.byteAt (base + len) :=
      { BodySource.readsAt hfills with
        ne_nil := fun off want hoff => (BodySource.readsAt hfills).ne_nil off want (by omega) }
    obtain ⟨hlen, hbytes⟩ := drain_spec hreads (by decide : 0 < 2048) len base (by omega)
    exact eq_bytesFrom (by omega) hbytes
  rw [Response.outline, outlineOf, streamReply]
  rcases chooseSlice_cases 200 view reply.source.totalLen with
    ⟨hp, hs⟩ | ⟨a, b, hle, hp, hs⟩ | ⟨hp, hs⟩
  · rw [hs, hp]
    dsimp only
    rw [hbody (by omega)]
    rfl
  · rw [hs, hp]
    dsimp only
    rw [hbody hle]
    rfl
  · rw [hs, hp]
    rfl

/-! ## Where the headers end -/

theorem terminator_ne_nil : terminator ≠ [] := by decide

/-- A terminator in what was read is the first of the request. -/
theorem readHeaders_eq_some (fuel : ℕ) :
    ∀ {buf rest buf' rest' : List UInt8} {p : ℕ}, buf.length ≤ maxHeader →
      readHeaders fuel buf rest = some (p, buf', rest') →
      find (buf ++ rest) terminator = some p ∧ p + 4 ≤ 9216 ∧
        buf'.take p = (buf ++ rest).take p := by
  induction fuel with
  | zero => exact fun _ h => by cases h
  | succ fuel ih =>
    intro buf rest buf' rest' p hlen h
    rw [readHeaders] at h
    have hsplit : buf ++ rest = buf ++ rest.take 1024 ++ rest.drop 1024 := by
      rw [List.append_assoc, List.take_append_drop]
    have hread : (buf ++ rest.take 1024).length ≤ buf.length + 1024 := by
      rw [List.length_append, List.length_take]
      omega
    split at h
    · cases h
    · dsimp only at h
      rw [hsplit]
      generalize buf ++ rest.take 1024 = read at h hread ⊢
      split at h
      · next q hfind =>
        obtain ⟨rfl, hrest⟩ := Prod.mk.inj (Option.some.inj h)
        obtain ⟨rfl, rfl⟩ := Prod.mk.inj hrest
        have hmatch := ((Search.position_eq_some terminator_ne_nil).mp hfind).1
        have hend := Search.add_length_le_of_prefix terminator_ne_nil hmatch
        have hfour : terminator.length = 4 := rfl
        have hmax : maxHeader = 8192 := rfl
        exact ⟨Search.position_append_left terminator_ne_nil hfind _, by omega,
          (List.take_append_of_le_length (by omega)).symm⟩
      · split at h
        · cases h
        · exact ih (by omega) h

/-- A request whose headers are not found has them end too late, or not at all. -/
theorem readHeaders_eq_none (fuel : ℕ) :
    ∀ {buf rest : List UInt8}, rest.length < fuel → find buf terminator = none →
      (1024 ∣ buf.length ∨ rest = []) → readHeaders fuel buf rest = none →
      ∀ p, find (buf ++ rest) terminator = some p → 9216 < p + 4 := by
  induction fuel with
  | zero => exact fun h => absurd h (Nat.not_lt_zero _)
  | succ fuel ih =>
    intro buf rest hfuel hnone hblock h p hp
    rw [readHeaders] at h
    split at h
    · next hrest =>
      rw [hrest, List.append_nil, hnone] at hp
      cases hp
    · next hrest =>
      have hsplit : buf ++ rest = buf ++ rest.take 1024 ++ rest.drop 1024 := by
        rw [List.append_assoc, List.take_append_drop]
      have hread : (buf ++ rest.take 1024).length = buf.length + min 1024 rest.length := by
        rw [List.length_append, List.length_take]
      have hmult := hblock.resolve_right hrest
      have hpos := List.length_pos_of_ne_nil hrest
      dsimp only at h
      rw [hsplit] at hp
      split at h
      · cases h
      · next hfind =>
        -- each read but the last is a full block
        by_cases hall : rest.length < 1024
        · -- this was the last of it
          rw [List.drop_eq_nil_of_le (by omega), List.append_nil, hfind] at hp
          cases hp
        · have hlate : (buf ++ rest.take 1024).length < p + 4 := by
            by_contra hle
            have hblock := Search.position_block_eq_some (u := []) terminator_ne_nil
              (by rw [List.nil_append]; exact hp) (Nat.zero_le _)
              (by rw [List.length_nil, Nat.zero_add]; exact Nat.le_of_not_lt hle)
            rw [find, hblock] at hfind
            cases hfind
          have hmax : maxHeader = 8192 := rfl
          split at h
          · omega
          · refine ih ?_ hfind (.inl ?_) h p hp
            · rw [List.length_drop]
              omega
            · omega

/-- The end of the headers, as far as this server looks for it. -/
def headersEnd (req : List UInt8) : Option ℕ :=
  (find req terminator).filter fun p => p + 4 ≤ 9216

/-- **What this server reads of a request**: the headers, where they end in time. -/
theorem readRequest_spec (req : List UInt8) :
    (readRequest req).map Request.head =
      (headersEnd req).map fun p => fromUtf8Lossy (req.take p) := by
  rw [readRequest]
  cases hread : readHeaders (req.length + 1) [] req with
  | none =>
    have hlate := readHeaders_eq_none (req.length + 1) (Nat.lt_succ_self _) rfl
      (.inl (Nat.dvd_zero _)) hread
    rw [List.nil_append] at hlate
    have hend : headersEnd req = none := by
      rw [headersEnd, Option.filter_eq_none_iff]
      intro p hp hle
      have := hlate p hp
      rw [decide_eq_true_iff] at hle
      omega
    rw [hend]
    rfl
  | some out =>
    obtain ⟨p, buf, rest⟩ := out
    obtain ⟨hfind, hle, htake⟩ := readHeaders_eq_some _ (Nat.zero_le _) hread
    rw [List.nil_append] at hfind htake
    have hend : headersEnd req = some p := by
      rw [headersEnd, Option.filter_eq_some_iff]
      exact ⟨hfind, decide_eq_true hle⟩
    rw [hend]
    simp only [Option.map_some, htake]

/-! ## Where a range is looked for -/

/-- A line is named `range`. -/
def namesRange (line : String) : Bool :=
  match splitOnce ':' line with
  | some (name, _) => (trim name).map Char.toLower = "range"
  | none => false

/-- The first line that is named `range` decides. -/
theorem rangeSpec_append (head body : List String) :
    rangeSpec (head ++ body) =
      if head.any namesRange then rangeSpec head else rangeSpec body := by
  induction head with
  | nil => rfl
  | cons line head ih =>
    rw [List.cons_append, rangeSpec, rangeSpec, List.any_cons, namesRange]
    cases splitOnce ':' line with
    | none => exact ih
    | some nameVal =>
      dsimp only
      by_cases hname : (trim nameVal.1).map Char.toLower = "range"
      · simp only [hname, if_true, decide_true, Bool.true_or]
      · simp only [hname, if_false, decide_false, Bool.false_or]
        exact ih

theorem rangeSpec_of_not {lines : List String} (h : lines.any namesRange = false) :
    rangeSpec lines = none := by
  have happend := rangeSpec_append lines []
  rw [List.append_nil, h] at happend
  exact happend

/-- The text of a request is that of its headers and that of its body. -/
theorem linesOf_request {req : List UInt8} {p : ℕ} {text : String}
    (hfind : find req terminator = some p) (htext : fromUtf8 req = .ok text) :
    linesOf text = linesOf (fromUtf8Lossy (req.take p)) ++
      "" :: linesOf (fromUtf8Lossy (req.drop (p + 4))) := by
  obtain ⟨t, ht⟩ := ((Search.position_eq_some terminator_ne_nil).mp hfind).1
  have hdrop : req.drop (p + 4) = t := by
    rw [← List.drop_drop, ← ht]
    rfl
  have hreq : req.take p ++ 13 :: 10 :: 13 :: 10 :: t = req := by
    conv_rhs => rw [← List.take_append_drop p req, ← ht]
    rfl
  rw [← hreq] at htext
  -- the four bytes are characters of their own
  obtain ⟨head, t₁, hhead, h₁, e₁⟩ := fromUtf8_split_ascii (by decide) htext
  obtain ⟨n₁, t₂, hn₁, h₂, e₂⟩ := fromUtf8_split_ascii (x := []) (by decide) h₁
  obtain ⟨n₂, t₃, hn₂, h₃, e₃⟩ := fromUtf8_split_ascii (x := []) (by decide) h₂
  obtain ⟨n₃, body, hn₃, hbody, e₄⟩ := fromUtf8_split_ascii (x := []) (by decide) h₃
  have hempty : ∀ {s : String}, fromUtf8 [] = .ok s → s.toList = [] := by
    intro s hs
    have hnil := fromUtf8_utf8 ""
    rw [show utf8 "" = [] from rfl, hs] at hnil
    rw [Except.ok.inj hnil]
    rfl
  rw [hempty hn₁, List.nil_append] at e₂
  rw [hempty hn₂, List.nil_append] at e₃
  rw [hempty hn₃, List.nil_append] at e₄
  rw [hdrop, fromUtf8Lossy_of_valid hhead, fromUtf8Lossy_of_valid hbody, linesOf, linesOf, linesOf,
    e₁, e₂, e₃, e₄]
  have hcr : Char.ofNat (13 : UInt8).toNat = '\r' := rfl
  have hlf : Char.ofNat (10 : UInt8).toNat = '\n' := rfl
  have hsep : "\r\n".toList = ['\r', '\n'] := rfl
  have hne : '\r' ≠ '\n' := by decide
  rw [hcr, hlf, hsep, Split.pieces_append_sep hne, List.map_append]
  have hrest := Split.pieces_append_sep hne [] body.toList
  rw [List.nil_append] at hrest
  rw [hrest]
  rfl

/-- The range of the headers is the range of the whole request: in valid UTF-8 it is
one of the headers that is named `range`, or no line of the body asks for one; in other
bytes, which `parse_range` does not look at, the headers have none. -/
def AgreesOnRange (req : List UInt8) (p : ℕ) : Prop :=
  let head := linesOf (fromUtf8Lossy (req.take p))
  let body := linesOf (fromUtf8Lossy (req.drop (p + 4)))
  if (fromUtf8 req).isOk then head.any namesRange = true ∨ rangeSpec body = none
  else rangeSpec head = none

/-- The two servers see the same range, or only one of them sees any. -/
theorem rangeSeen_cases {req : List UInt8} {p : ℕ} (hend : headersEnd req = some p) :
    (AgreesOnRange req p ∧
      rangeSeen (utf8 (fromUtf8Lossy (req.take p))) = rangeSeen req) ∨
    (¬ AgreesOnRange req p ∧ ¬ (rangeSeen (utf8 (fromUtf8Lossy (req.take p))) = none ↔
      rangeSeen req = none)) := by
  obtain ⟨hfind, -⟩ := (Option.filter_eq_some_iff).mp hend
  rw [rangeSeen_utf8]
  unfold AgreesOnRange
  dsimp only
  cases htext : fromUtf8 req with
  | error n =>
    have hseen : rangeSeen req = none := by rw [rangeSeen, htext]
    rw [hseen]
    by_cases hnone : rangeSpec (linesOf (fromUtf8Lossy (req.take p))) = none
    · exact .inl ⟨hnone, hnone⟩
    · exact .inr ⟨hnone, fun h => hnone (h.mpr rfl)⟩
  | ok text =>
    have hseen : rangeSeen req = rangeSpec (linesOf (fromUtf8Lossy (req.take p)) ++
        "" :: linesOf (fromUtf8Lossy (req.drop (p + 4)))) := by
      rw [rangeSeen, htext]
      exact congrArg rangeSpec (linesOf_request hfind htext)
    have hblank : ∀ lines, rangeSpec ("" :: lines) = rangeSpec lines := fun lines => rfl
    rw [hseen, rangeSpec_append, hblank]
    generalize linesOf (fromUtf8Lossy (req.take p)) = head
    generalize linesOf (fromUtf8Lossy (req.drop (p + 4))) = body
    simp only [Except.isOk, Except.toBool, if_true]
    cases hnames : head.any namesRange with
    | true => exact .inl ⟨.inl rfl, by simp⟩
    | false =>
      rw [rangeSpec_of_not hnames]
      by_cases hnone : rangeSpec body = none
      · exact .inl ⟨.inr hnone, by simp [hnone]⟩
      · exact .inr ⟨by simp [hnone], by simp [hnone]⟩

/-! ## Agreement -/

/-- The outline of what this server answers. -/
theorem outline_respond {reply : HttpReply} (hfills : reply.source.Fills) (req : List UInt8) :
    (respond reply req).map Response.outline = (headersEnd req).map fun p =>
      outlineOf reply.source (chooseSlice 200 (utf8 (fromUtf8Lossy (req.take p)))
        reply.source.totalLen) := by
  have hhead := congrArg
    (Option.map fun head => (streamReply reply (utf8 head)).outline) (readRequest_spec req)
  rw [Option.map_map, Option.map_map] at hhead
  rw [respond, Option.map_map]
  refine hhead.trans (congrFun (congrArg Option.map (funext fun p => ?_)) _)
  exact outline_streamReply hfills _

/-- Where only one view has a range, the statuses differ. -/
theorem outlineOf_ne {s : BodySource} {view view' : List UInt8}
    (h : ¬ (rangeSeen view = none ↔ rangeSeen view' = none)) :
    outlineOf s (chooseSlice 200 view s.totalLen) ≠
      outlineOf s (chooseSlice 200 view' s.totalLen) := by
  intro heq
  apply h
  have hstatus : (chooseSlice 200 view s.totalLen).status =
      (chooseSlice 200 view' s.totalLen).status := congrArg Outline.status heq
  rw [← status_chooseSlice view s.totalLen, hstatus, status_chooseSlice]

/-- **The two servers give one outline** for a reply with status 200 exactly if the
headers end within the bytes that the server on the local network reads for them, and
the range of the headers is the range of the whole request. -/
theorem servers_agree_iff {reply : HttpReply} (hstatus : reply.status = 200)
    (hfills : reply.source.Fills) (req : List UInt8) :
    (respond reply req).map Response.outline = some (tunnelRespond reply req).outline ↔
      ∃ p, headersEnd req = some p ∧ AgreesOnRange req p := by
  rw [outline_respond hfills, outline_tunnelRespond hfills, hstatus]
  cases hend : headersEnd req with
  | none => simp
  | some p =>
    simp only [Option.map_some, Option.some_inj, exists_eq_left']
    rcases rangeSeen_cases hend with ⟨hagree, hseen⟩ | ⟨hagree, hseen⟩
    · exact iff_of_true (congrArg _ (chooseSlice_congr hseen)) hagree
    · exact iff_of_false (outlineOf_ne hseen) hagree

/-- A reply, and a request for all of it but the first byte. -/
def helloReply : HttpReply := .okStatic "text/plain" (utf8 "hello")

theorem helloReply_fills : helloReply.source.Fills := trivial

def partialRequest : String := "GET / HTTP/1.1\r\nRange: bytes=1-\r\n\r\n"

theorem servers_agree_partial :
    (respond helloReply (utf8 partialRequest)).map Response.outline =
      some (tunnelRespond helloReply (utf8 partialRequest)).outline := by
  refine (servers_agree_iff rfl helloReply_fills _).mpr ⟨31, by decide, ?_⟩
  rw [AgreesOnRange, fromUtf8_utf8]
  exact .inr (by decide)

/-- A request without a range, whose body has a line that looks like one. -/
def rangeInBody : String := "POST /run HTTP/1.1\r\n\r\nRange: bytes=0-0"

theorem rangeSpec_rangeInBody : rangeSpec (linesOf rangeInBody) = some "0-0" := by
  have hlines : linesOf rangeInBody = ["POST /run HTTP/1.1", ""] ++ ["Range: bytes=0-0"] := by
    decide
  have hnames : ["POST /run HTTP/1.1", ""].any namesRange = false := by decide
  have hsplit : splitOnce ':' "Range: bytes=0-0" = some ("Range", " bytes=0-0") := by decide
  have hname : (trim "Range").map Char.toLower = "range" := by
    rw [← String.toList_inj, String.toList_map]
    decide
  rw [hlines, rangeSpec_append, hnames, if_neg Bool.false_ne_true, rangeSpec, hsplit]
  dsimp only
  rw [if_pos hname]
  decide

/-- **A line of the body is taken for a header** by the in-tunnel server only. -/
theorem servers_differ : ∃ reply req, reply.status = 200 ∧ reply.source.Fills ∧
    headersEnd req ≠ none ∧
    (respond reply req).map Response.outline ≠ some (tunnelRespond reply req).outline := by
  have hend : headersEnd (utf8 rangeInBody) = some 18 := by decide
  refine ⟨helloReply, utf8 rangeInBody, rfl, helloReply_fills, by rw [hend]; simp, ?_⟩
  rw [outline_respond helloReply_fills, outline_tunnelRespond helloReply_fills, hend,
    Option.map_some, ne_eq, Option.some_inj]
  refine outlineOf_ne ?_
  rw [rangeSeen_utf8, rangeSeen_utf8, rangeSpec_rangeInBody]
  decide

end LocalServer
