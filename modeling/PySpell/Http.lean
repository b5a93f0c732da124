/-
# Requests and responses of the in-tunnel server

The HTTP side of `tcp.rs`: what a body can be read from, how a request is routed
and which range of the body it asks for, and the headers of the response.  A
response is addressed by one offset space, headers first; `RespState.byteAt` is the
byte at an offset, and `readResponse_spec` says that every read gives the bytes at
its offset.

The machines that the server runs on have 32-bit addresses.
-/
import PySpell.Lib.Hex
import PySpell.Lib.Split

namespace Http

open Text

/-! ## Bodies -/

/-- `FlashReader`: a re-readable body.  Reading at an offset gives at most as many
bytes as there is room for, and the same bytes at the same offset every time. -/
structure FlashReader where
  content : ℕ → UInt8
  readAt : ℕ → ℕ → List UInt8
  length_le : ∀ off want, (readAt off want).length ≤ want
  getElem_eq : ∀ off want i (h : i < (readAt off want).length),
    (readAt off want)[i] = content (off + i)

/-- `BodySource`. -/
inductive BodySource where
  | static (bytes : List UInt8)
  | owned (bytes : List UInt8)
  | flash (reader : FlashReader) (len : ℕ)

/-- `copy_clamped`: the bytes that are copied. -/
def copyClamped (src : List UInt8) (off want : ℕ) : List UInt8 := (src.drop off).take want

namespace BodySource

/-- `total_len`. -/
def totalLen : BodySource → ℕ
  | static bytes => bytes.length
  | owned bytes => bytes.length
  | flash _ len => len

/-- `read_at`: the bytes that are read. -/
def readAt : BodySource → ℕ → ℕ → List UInt8
  | static bytes, off, want => copyClamped bytes off want
  | owned bytes, off, want => copyClamped bytes off want
  | flash reader len, off, want =>
    if len ≤ off then [] else reader.readAt off (min (len - off) want)

/-- The byte of the body at an offset. -/
def byteAt : BodySource → ℕ → UInt8
  | static bytes, i => bytes.getD i 0
  | owned bytes, i => bytes.getD i 0
  | flash reader _, i => reader.content i

end BodySource

/-- `HttpReply`. -/
structure HttpReply where
  status : ℕ
  contentType : String
  source : BodySource
  cacheControl : Option String

/-- `HttpReply::ok_static`. -/
def HttpReply.okStatic (contentType : String) (body : List UInt8) : HttpReply :=
  ⟨200, contentType, .static body, none⟩

/-- `HttpReply::ok_owned`. -/
def HttpReply.okOwned (contentType : String) (body : List UInt8) : HttpReply :=
  ⟨200, contentType, .owned body, none⟩

/-- `RouteFn`: method, path, query and body of the request. -/
abbrev RouteFn := String → String → String → List UInt8 → Option HttpReply

/-! ## Reading a request -/

/-- `str::split_once` at a character. -/
def splitOnce (sep : Char) (s : String) : Option (String × String) :=
  (Split.cut (Split.oneOf [sep]) s.toList).map fun (a, b) => (String.ofList a, String.ofList b)

/-- `str::strip_prefix`. -/
def stripPrefix (s pre : String) : Option String :=
  if pre.toList.isPrefixOf s.toList then some (String.ofList (s.toList.drop pre.length)) else none

/-- `str::parse::<usize>`. -/
def parseUsize (s : String) : Option ℕ := parseUnsigned 32 s

/-- `first_line`. -/
def firstLine (req : List UInt8) : String :=
  match fromUtf8 (req.takeWhile fun b => b ≠ 13 && b ≠ 10) with
  | .ok s => s
  | .error _ => ""

/-- `http_body`: what follows the first empty line. -/
def httpBody : List UInt8 → List UInt8
  | [] => []
  | b :: bs => if [13, 10, 13, 10].isPrefixOf (b :: bs) then bs.drop 3 else httpBody bs

/-- The loop of `query_get`. -/
def queryLookup (key : String) : List String → String
  | [] => ""
  | kv :: kvs =>
    match splitOnce '=' kv with
    | some (k, v) => if k = key then v else queryLookup key kvs
    | none => queryLookup key kvs

/-- `query_get`. -/
def queryGet (query key : String) : String := queryLookup key (splitChar '&' query)

/-- The loop of `url_decode`, in at most so many steps. -/
def urlDecodeLoop : ℕ → List UInt8 → List UInt8
  | 0, _ => []
  | _ + 1, [] => []
  | fuel + 1, 43 :: bs => 32 :: urlDecodeLoop fuel bs
  | fuel + 1, 37 :: bs =>
    match bs with
    | h :: l :: rest =>
      match Hex.val h, Hex.val l with
      | some h, some l => UInt8.ofNat (h * 16 + l) :: urlDecodeLoop fuel rest
      | _, _ => 37 :: urlDecodeLoop fuel bs
    | _ => 37 :: urlDecodeLoop fuel bs
  | fuel + 1, b :: bs => b :: urlDecodeLoop fuel bs

/-- `url_decode`; every step takes a byte. -/
def urlDecode (s : String) : String :=
  fromUtf8Lossy (urlDecodeLoop (utf8 s).length (utf8 s))

/-! ## Ranges -/

/-- The value behind `bytes=` of the first header line that is named `range`. -/
def rangeSpec : List String → Option String
  | [] => none
  | line :: lines =>
    match splitOnce ':' line with
    | some (name, val) =>
      if (trim name).map Char.toLower = "range" then
        (stripPrefix (trim val) "bytes=").map trim
      else rangeSpec lines
    | none => rangeSpec lines

/-- The bounds of one range of a body of `total` bytes; `none` when they cannot be
satisfied. -/
def rangeBounds (spec : String) (total : ℕ) : Option (ℕ × ℕ) :=
  match splitOnce '-' spec with
  | none => none
  | some (start, stop) =>
    if start = "" then do
      -- the last so many bytes
      let n ← parseUsize (trim stop)
      if 0 < n then some (total - min n total, total - 1) else none
    else if stop = "" then do
      let a ← parseUsize (trim start)
      if total ≤ a then none else some (a, total - 1)
    else do
      let a ← parseUsize (trim start)
      let b ← parseUsize (trim stop)
      if total ≤ a ∨ b < a then none else some (a, min b (total - 1))

/-- `parse_range`: `.ok none` without a range, `.error` when it cannot be satisfied. -/
def parseRange (req : List UInt8) (total : ℕ) : Except Unit (Option (ℕ × ℕ)) :=
  match fromUtf8 req with
  | .error _ => .ok none
  | .ok text =>
    let lines := (Split.pieces (Split.str "\r\n".toList) text.toList).map String.ofList
    match rangeSpec lines with
    | none => .ok none
    | some spec =>
      if total = 0 then .error ()
      else
        -- only the first range counts
        match rangeBounds (trim ((splitChar ',' spec).headD "")) total with
        | some bounds => .ok (some bounds)
        | none => .error ()

/-- A range lies in the body. -/
theorem rangeBounds_spec {spec : String} {total a b : ℕ} (htotal : 0 < total)
    (h : rangeBounds spec total = some (a, b)) : a ≤ b ∧ b < total := by
  unfold rangeBounds at h
  split at h
  · cases h
  · split at h
    · obtain ⟨n, -, h⟩ := Option.bind_eq_some_iff.mp h
      split at h
      · obtain ⟨rfl, rfl⟩ := Prod.mk.inj (Option.some.inj h)
        omega
      · cases h
    · split at h
      · obtain ⟨n, -, h⟩ := Option.bind_eq_some_iff.mp h
        split at h
        · cases h
        · obtain ⟨rfl, rfl⟩ := Prod.mk.inj (Option.some.inj h)
          omega
      · obtain ⟨n, -, h⟩ := Option.bind_eq_some_iff.mp h
        obtain ⟨m, -, h⟩ := Option.bind_eq_some_iff.mp h
        split at h
        · cases h
        · obtain ⟨rfl, rfl⟩ := Prod.mk.inj (Option.some.inj h)
          omega

/-- **A satisfiable range lies in the body.** -/
theorem parseRange_spec {req : List UInt8} {total a b : ℕ}
    (h : parseRange req total = .ok (some (a, b))) : a ≤ b ∧ b < total := by
  unfold parseRange at h
  split at h
  · cases h
  · dsimp only at h
    split at h
    · cases h
    · split at h
      · cases h
      · split at h
        · next hb =>
          cases h
          exact rangeBounds_spec (by omega) hb
        · cases h

/-! ## Headers -/

/-- `render_headers`. -/
def renderHeaders (status : ℕ) (contentType : String) (bodyBase contentLen total : ℕ)
    (cacheControl : Option String) : List UInt8 :=
  let reason :=
    if status = 206 then "Partial Content"
    else if status = 416 then "Range Not Satisfiable"
    else "OK"
  let fixed := s!"HTTP/1.1 {status} {reason}\r\nContent-Type: {contentType}\r\nContent-Length: {contentLen}\r\nConnection: close\r\nAccess-Control-Allow-Origin: *\r\nAccept-Ranges: bytes\r\n"
  let cache := match cacheControl with
    | some cc => s!"Cache-Control: {cc}\r\n"
    | none => ""
  let range :=
    if status = 206 then
      let last := bodyBase + contentLen - 1
      s!"Content-Range: bytes {bodyBase}-{last}/{total}\r\n"
    else if status = 416 then s!"Content-Range: bytes */{total}\r\n"
    else ""
  utf8 (fixed ++ cache ++ range ++ "\r\n")

/-! ## The response -/

/-- `RespState`.  The last two fields say that the offsets up to `totalLen` are those
of the headers and of a slice of the body. -/
structure RespState where
  headers : List UInt8
  hdrLen : ℕ
  source : BodySource
  bodyBase : ℕ
  totalLen : ℕ
  finSent : Bool
  hdrLen_eq : hdrLen = headers.length
  slice_le : bodyBase + (totalLen - hdrLen) ≤ source.totalLen

/-- Whether the FIN has been sent. -/
def RespState.withFin (r : RespState) (sent : Bool) : RespState := { r with finSent := sent }

/-- The status of a response, and the slice of the body that it serves. -/
structure Slice (total : ℕ) where
  status : ℕ
  base : ℕ
  len : ℕ
  le : base + len ≤ total

/-- What the `Range:` of a request makes of a reply. -/
def chooseSlice (status : ℕ) (req : List UInt8) (total : ℕ) : Slice total :=
  match h : parseRange req total with
  | .ok none => ⟨status, 0, total, by omega⟩
  | .ok (some (a, b)) => ⟨206, a, b - a + 1, by have := parseRange_spec h; omega⟩
  | .error () => ⟨416, 0, 0, by omega⟩

/-- The three slices. -/
theorem chooseSlice_cases (status : ℕ) (req : List UInt8) (total : ℕ) :
    (parseRange req total = .ok none ∧
      chooseSlice status req total =
        ⟨status, 0, total, Nat.le_of_eq (Nat.zero_add total)⟩) ∨
    (∃ a b, ∃ h : a + (b - a + 1) ≤ total, parseRange req total = .ok (some (a, b)) ∧
      chooseSlice status req total = ⟨206, a, b - a + 1, h⟩) ∨
    (parseRange req total = .error () ∧
      chooseSlice status req total = ⟨416, 0, 0, Nat.zero_le total⟩) := by
  unfold chooseSlice
  split
  · next h => exact .inl ⟨h, rfl⟩
  · next a b h => exact .inr (.inl ⟨a, b, by have := parseRange_spec h; omega, h, rfl⟩)
  · next h => exact .inr (.inr ⟨h, rfl⟩)

/-- The response to a request that was routed: its range and its headers. -/
def stageResponse (reply : HttpReply) (req : List UInt8) : RespState :=
  let slice := chooseSlice reply.status req reply.source.totalLen
  let headers := renderHeaders slice.status reply.contentType slice.base slice.len
    reply.source.totalLen reply.cacheControl
  { headers := headers
    hdrLen := headers.length
    source := reply.source
    bodyBase := slice.base
    totalLen := headers.length + slice.len
    finSent := false
    hdrLen_eq := rfl
    slice_le := by rw [Nat.add_sub_cancel_left]; exact slice.le }

/-- `read_response`: the bytes from an offset on, headers and then the body. -/
def RespState.read (r : RespState) (abs want : ℕ) : List UInt8 :=
  let head := if abs < r.hdrLen then (r.headers.drop abs).take (min (r.hdrLen - abs) want) else []
  let pos := abs + head.length
  if abs < r.hdrLen ∧ head.length = want then head
  else if r.hdrLen ≤ pos ∧ pos < r.totalLen then
    head ++ r.source.readAt (r.bodyBase + (pos - r.hdrLen)) (want - head.length)
  else head

/-- The byte of the response at an offset. -/
def RespState.byteAt (r : RespState) (i : ℕ) : UInt8 :=
  if i < r.hdrLen then r.headers.getD i 0 else r.source.byteAt (r.bodyBase + (i - r.hdrLen))

/-! ### Reading any part -/

/-- The bytes are those of a function from an offset on. -/
def BytesAt (l : List UInt8) (f : ℕ → UInt8) (off : ℕ) : Prop :=
  ∀ i (h : i < l.length), l[i] = f (off + i)

theorem bytesAt_append {l l' : List UInt8} {f : ℕ → UInt8} {off : ℕ} (h : BytesAt l f off)
    (h' : BytesAt l' f (off + l.length)) : BytesAt (l ++ l') f off := by
  intro i hi
  by_cases hlt : i < l.length
  · rw [List.getElem_append_left hlt]
    exact h i hlt
  · rw [List.length_append] at hi
    rw [List.getElem_append_right (by omega), h' (i - l.length) (by omega)]
    congr 1
    omega

theorem getD_eq_getElem (l : List UInt8) {i : ℕ} (h : i < l.length) : l.getD i 0 = l[i] := by
  rw [List.getD_eq_getElem?_getD, List.getElem?_eq_getElem h, Option.getD_some]

theorem bytesAt_copyClamped (src : List UInt8) (off want : ℕ) :
    BytesAt (copyClamped src off want) (fun i => src.getD i 0) off := by
  intro i hi
  have hlen : off + i < src.length := by
    unfold copyClamped at hi
    rw [List.length_take, List.length_drop] at hi
    omega
  simp only [copyClamped, List.getElem_take, List.getElem_drop]
  exact (getD_eq_getElem src hlen).symm

/-- A read of the body gives the bytes at its offset, and not too many. -/
theorem BodySource.readAt_spec (s : BodySource) (off want : ℕ) :
    (s.readAt off want).length ≤ want ∧ BytesAt (s.readAt off want) s.byteAt off := by
  cases s with
  | static bytes =>
    exact ⟨List.length_take_le _ _, bytesAt_copyClamped bytes off want⟩
  | owned bytes =>
    exact ⟨List.length_take_le _ _, bytesAt_copyClamped bytes off want⟩
  | flash reader len =>
    by_cases hoff : len ≤ off
    · have hread : (BodySource.flash reader len).readAt off want = [] := if_pos hoff
      rw [hread]
      exact ⟨Nat.zero_le _, fun i hi => by simp at hi⟩
    · have hread : (BodySource.flash reader len).readAt off want =
          reader.readAt off (min (len - off) want) := if_neg hoff
      rw [hread]
      exact ⟨(reader.length_le _ _).trans (min_le_right _ _), reader.getElem_eq _ _⟩

/-- **A read of the response gives the bytes at its offset**, and not too many. -/
theorem RespState.read_spec (r : RespState) (abs want : ℕ) :
    (r.read abs want).length ≤ want ∧ BytesAt (r.read abs want) r.byteAt abs := by
  have hr := r.hdrLen_eq
  -- the piece of the headers
  have hhead : ∀ head, head = (if abs < r.hdrLen then
      (r.headers.drop abs).take (min (r.hdrLen - abs) want) else []) →
      head.length ≤ want ∧ BytesAt head r.byteAt abs ∧
        (abs < r.hdrLen → head.length = min (r.hdrLen - abs) want) ∧
        (r.hdrLen ≤ abs → head = []) := by
    intro head hdef
    by_cases habs : abs < r.hdrLen
    · rw [if_pos habs] at hdef
      have hlen : head.length = min (r.hdrLen - abs) want := by
        rw [hdef, List.length_take, List.length_drop]
        omega
      refine ⟨by omega, fun i hi => ?_, fun _ => hlen, fun h => by omega⟩
      subst hdef
      rw [List.getElem_take, List.getElem_drop, RespState.byteAt, if_pos (by omega),
        getD_eq_getElem]
    · rw [if_neg habs] at hdef
      subst hdef
      exact ⟨Nat.zero_le _, fun i hi => by simp at hi, fun h => by omega, fun _ => rfl⟩
  unfold RespState.read
  obtain ⟨hle, hbytes, hlen, hnil⟩ := hhead _ rfl
  generalize (if abs < r.hdrLen then
    (r.headers.drop abs).take (min (r.hdrLen - abs) want) else []) = head at hle hbytes hlen hnil ⊢
  dsimp only
  split
  · exact ⟨hle, hbytes⟩
  · split
    · next hfull hpos =>
      obtain ⟨hn, hbody⟩ := r.source.readAt_spec
        (r.bodyBase + (abs + head.length - r.hdrLen)) (want - head.length)
      refine ⟨by rw [List.length_append]; omega, bytesAt_append hbytes fun i hi => ?_⟩
      rw [hbody i hi, RespState.byteAt, if_neg (by omega)]
      congr 1
      omega
    · exact ⟨hle, hbytes⟩

end Http
