/-
# The frames of a request

A request is one HEADERS frame and one DATA frame, whatever their sizes are.  `Framed`
says what a peer with the default settings accepts: no payload above 16384 bytes, the
body in the DATA frames, the end of the stream on the last frame of the request, and
bytes that split into these frames again (`Splits`).  A request is framed if and only if
its body and its header block both fit into a frame (`posts_framed`); the size of the
block is `blockSize`.
-/
import Mathlib.Data.Nat.Log
import PySpell.H2

open Text

namespace NetMap.H2

/-! ## The bytes of a frame -/

/-- The bytes split into these frames, one by one. -/
inductive Splits : List UInt8 → List Frame → Prop
  | nil : Splits [] []
  | cons {l rest : List UInt8} {fr : Frame} {frames : List Frame}
      (h : splitFrame l = some (fr, rest)) (hrest : Splits rest frames) : Splits l (fr :: frames)

/-- A frame that survives its encoding: the length has three bytes, and the reserved bit
is clear. -/
structure Encodable (fr : Frame) : Prop where
  length : fr.payload.length < 2 ^ 24
  reserved : fr.streamId &&& 0x7fffffff = fr.streamId

theorem encodable_frame {typ flags : UInt8} {sid : UInt32} {payload : List UInt8}
    (h : payload.length < 2 ^ 24) : Encodable (frame typ flags sid payload) where
  length := h
  reserved := by
    change sid &&& 0x7fffffff &&& 0x7fffffff = sid &&& 0x7fffffff
    rw [UInt32.and_assoc, UInt32.and_self]

/-- The nine bytes in front of a payload. -/
def header (fr : Frame) : List UInt8 :=
  Bytes.ofNatBe 3 fr.payload.length ++ [fr.typ, fr.flags] ++ Bytes.ofNatBe 4 fr.streamId.toNat

theorem encode_eq (fr : Frame) : encode fr = header fr ++ fr.payload := rfl

theorem length_header (fr : Frame) : (header fr).length = 9 := by
  simp [header]

/-- What `read_frame` reads from the header. -/
theorem header_fields {fr : Frame} (h : Encodable fr) :
    Bytes.toNatBe ((header fr).take 3) = fr.payload.length ∧ (header fr).getD 3 0 = fr.typ ∧
      (header fr).getD 4 0 = fr.flags ∧
      UInt32.ofNat (Bytes.toNatBe ((header fr).drop 5)) &&& 0x7fffffff = fr.streamId := by
  have hlen : Bytes.toNatBe (Bytes.ofNatBe 3 fr.payload.length) = fr.payload.length :=
    Bytes.toNatBe_ofNatBe (h.length.trans_le (by decide))
  have hsid : Bytes.toNatBe (Bytes.ofNatBe 4 fr.streamId.toNat) = fr.streamId.toNat :=
    Bytes.toNatBe_ofNatBe (fr.streamId.toNat_lt.trans_le (by decide))
  obtain ⟨a, b, c, habc⟩ := List.length_eq_three.mp (Bytes.length_ofNatBe 3 fr.payload.length)
  have hheader : header fr = [a, b, c, fr.typ, fr.flags] ++ Bytes.ofNatBe 4 fr.streamId.toNat := by
    rw [header, habc]
    rfl
  rw [hheader]
  refine ⟨?_, rfl, rfl, ?_⟩
  · rw [← hlen, habc]
    rfl
  · change UInt32.ofNat (Bytes.toNatBe (Bytes.ofNatBe 4 fr.streamId.toNat)) &&& _ = _
    rw [hsid, UInt32.ofNat_toNat, h.reserved]

/-- **`read_frame` reads what `frame` writes**, and leaves the rest. -/
theorem splitFrame_encode {fr : Frame} (h : Encodable fr) (rest : List UInt8) :
    splitFrame (encode fr ++ rest) = some (fr, rest) := by
  obtain ⟨hlen, htyp, hflags, hsid⟩ := header_fields h
  have hnine := length_header fr
  have htake : (encode fr ++ rest).take 3 = (header fr).take 3 := by
    rw [encode_eq, List.append_assoc, List.take_append_of_le_length (by omega)]
  have hget : ∀ i < 9, (encode fr ++ rest).getD i 0 = (header fr).getD i 0 := by
    intro i hi
    rw [encode_eq, List.append_assoc, List.getD_eq_getElem?_getD, List.getD_eq_getElem?_getD,
      List.getElem?_append_left (by omega)]
  have hid : ((encode fr ++ rest).drop 5).take 4 = (header fr).drop 5 := by
    rw [encode_eq, List.append_assoc, List.drop_append_of_le_length (by omega), List.take_left' ?_]
    rw [List.length_drop, hnine]
  have hdrop : (encode fr ++ rest).drop 9 = fr.payload ++ rest := by
    rw [encode_eq, List.append_assoc, ← hnine, List.drop_left]
  have hroom : ¬ (encode fr ++ rest).length < 9 + fr.payload.length := by
    rw [encode_eq, List.length_append, List.length_append, hnine]
    omega
  rw [splitFrame, htake, hlen, hid]
  dsimp only
  rw [if_neg hroom, ← List.drop_drop, hdrop, List.take_left, List.drop_left,
    hget 3 (by decide), hget 4 (by decide), htyp, hflags, hsid]

/-- Frames that survive their encoding are what a peer reads. -/
theorem splits_encode {frames : List Frame} (h : ∀ fr ∈ frames, Encodable fr) :
    Splits (frames.flatMap encode) frames := by
  induction frames with
  | nil => exact .nil
  | cons fr frames ih =>
    rw [List.flatMap_cons]
    exact .cons (splitFrame_encode (h fr List.mem_cons_self) _)
      (ih fun f hf => h f (List.mem_cons_of_mem fr hf))

/-! ## The size of a header block -/

/-- The bytes of a string in a header block. -/
def strSize (n : ℕ) : ℕ := n + 1 + if n < 127 then 0 else 1 + Nat.log 128 (n - 127)

theorem length_encRem {fuel rem : ℕ} (h : rem ≤ fuel) :
    (encRem fuel rem).length = 1 + Nat.log 128 rem := by
  induction fuel generalizing rem with
  | zero =>
    obtain rfl : rem = 0 := Nat.le_zero.mp h
    rfl
  | succ fuel ih =>
    rw [encRem]
    by_cases hbig : 0x80 ≤ rem
    · have hlog := Nat.log_of_one_lt_of_le (by decide : 1 < 128) hbig
      rw [if_pos hbig, List.length_cons, ih (by omega), hlog]
      omega
    · rw [if_neg hbig, Nat.log_of_lt (by omega)]
      rfl

theorem length_encStr (s : List UInt8) : (encStr s).length = strSize s.length := by
  rw [encStr, strSize]
  by_cases hshort : s.length < 0x7f
  · rw [if_pos hshort, if_pos hshort]
    rfl
  · rw [if_neg hshort, if_neg hshort, List.cons_append, List.length_cons, List.length_append,
      length_encRem (Nat.sub_le _ _)]
    omega

theorem length_encHeader (name value : String) :
    (encHeader name value).length =
      1 + strSize (utf8 name).length + strSize (utf8 value).length := by
  rw [encHeader, List.cons_append, List.length_cons, List.length_append, length_encStr,
    length_encStr]
  omega

/-- The bytes of the header block of a request: the constant fields, and the sizes of the
authority, the path and the decimal length of the body. -/
def blockSize (authority path : String) (bodyLen : ℕ) : ℕ :=
  119 + strSize (utf8 authority).length + strSize (utf8 path).length +
    strSize (utf8 (toString bodyLen)).length

theorem length_reqHeaders (authority path : String) (bodyLen : ℕ) :
    (reqHeaders authority path bodyLen).length = blockSize authority path bodyLen := by
  have hmethod : (encHeader ":method" "POST").length = 14 := by decide
  have hscheme : (encHeader ":scheme" "http").length = 14 := by decide
  have htype : (encHeader "content-type" "application/json").length = 31 := by decide
  have haccept : (encHeader "accept" "application/json").length = 25 := by decide
  have hauthority : 1 + strSize (utf8 ":authority").length = 12 := by decide
  have hpath : 1 + strSize (utf8 ":path").length = 7 := by decide
  have hlength : 1 + strSize (utf8 "content-length").length = 16 := by decide
  rw [reqHeaders, blockSize]
  simp only [List.length_append]
  rw [hmethod, hscheme, htype, haccept, length_encHeader, length_encHeader, length_encHeader,
    hauthority, hpath, hlength]
  omega

/-! ## What a peer accepts -/

/-- A frame of the request itself. -/
def isRequest (fr : Frame) : Bool := fr.typ = ftHeaders || fr.typ = ftData

/-- Frames that a peer with the default settings takes as a request with this body. -/
structure Framed (frames : List Frame) (body : List UInt8) : Prop where
  small : ∀ fr ∈ frames, fr.payload.length ≤ maxFrameSize
  data : (frames.filter fun fr => fr.typ = ftData).flatMap Frame.payload = body
  ends : ∃ init last, frames.filter isRequest = init ++ [last] ∧ last.endsStream = true ∧
    ∀ fr ∈ init, fr.endsStream = false
  splits : Splits (frames.flatMap encode) frames

/-- The client sent a request with this body, and it is framed. -/
def Emits (s s' : Session) (body : List UInt8) : Prop :=
  ∃ frames, s'.sent = s.sent ++ frames ∧ Framed frames body

/-- The body and the header block fit into a frame. -/
def Fits (authority path : String) (body : List UInt8) : Prop :=
  body.length ≤ maxFrameSize ∧ blockSize authority path body.length ≤ maxFrameSize

/-- A frame that a reading loop sends: a window update or an acknowledgement. -/
structure IsControl (fr : Frame) : Prop where
  kind : isRequest fr = false
  small : fr.payload.length ≤ 4
  encodable : Encodable fr

/-- What every step of a loop sends, the loop sends. -/
theorem readLoop_sent {σ α : Type} {step : σ → Frame → List Frame × Next σ α}
    {P : Frame → Prop} (hstep : ∀ s fr, ∀ f ∈ (step s fr).1, P f) (closed : String)
    {reads : List Read} : ∀ {s : σ}, ∀ f ∈ (readLoop step closed s reads).2.1, P f := by
  induction reads with
  | nil => exact fun f hf => absurd hf List.not_mem_nil
  | cons r rest ih =>
    intro s f hf
    cases r with
    | failed message => exact absurd hf List.not_mem_nil
    | frame fr =>
      have hsend := hstep s fr.val
      rw [readLoop] at hf
      rcases hs : step s fr.val with ⟨out, s' | a | message⟩
      · rw [hs] at hf hsend
        rcases List.mem_append.mp hf with hf | hf
        · exact hsend f hf
        · exact ih f hf
      · rw [hs] at hf hsend
        exact hsend f hf
      · rw [hs] at hf hsend
        exact hsend f hf

theorem isControl_ackSettings {fr f : Frame} (hf : f ∈ ackSettings fr) : IsControl f := by
  rw [ackSettings] at hf
  split at hf
  · obtain rfl := List.mem_singleton.mp hf
    exact ⟨rfl, Nat.zero_le _, encodable_frame (by decide)⟩
  · exact absurd hf List.not_mem_nil

theorem isControl_windowUpdate {sid inc : UInt32} {f : Frame} (hf : f ∈ windowUpdate sid inc) :
    IsControl f := by
  have hsize : (Bytes.ofNatBe 4 inc.toNat).length = 4 := Bytes.length_ofNatBe 4 _
  have hcontrol : ∀ sid, IsControl (frame ftWindowUpdate 0 sid (Bytes.ofNatBe 4 inc.toNat)) :=
    fun sid => ⟨rfl, hsize.le, encodable_frame (hsize.trans_lt (by decide))⟩
  rw [windowUpdate, List.mem_cons, List.mem_singleton] at hf
  rcases hf with rfl | rfl
  · exact hcontrol sid
  · exact hcontrol 0

/-- A step of `read_response` acknowledges settings, or opens windows, or sends nothing. -/
theorem responseStep_sent (sid : UInt32) (acc : ℕ × List UInt8) (fr : Frame) :
    (responseStep sid acc fr).1 = [] ∨ (responseStep sid acc fr).1 = ackSettings fr ∨
      ∃ inc, (responseStep sid acc fr).1 = windowUpdate sid inc := by
  unfold responseStep
  split_ifs
  · exact .inl rfl
  · exact .inl rfl
  · exact .inl rfl
  · exact .inr (.inr ⟨_, rfl⟩)
  · exact .inr (.inr ⟨_, rfl⟩)
  · exact .inl rfl
  · exact .inl rfl
  · exact .inr (.inl rfl)
  · exact .inl rfl
  · exact .inl rfl

/-- `read_response` sends control frames only. -/
theorem readResponse_sent (sid : UInt32) (s : Session) :
    ∃ out, (readResponse sid s).2.sent = s.sent ++ out ∧ ∀ fr ∈ out, IsControl fr := by
  have hstep : ∀ acc fr, ∀ f ∈ (responseStep sid acc fr).1, IsControl f := by
    intro acc fr f hf
    rcases responseStep_sent sid acc fr with h | h | ⟨inc, h⟩
    · rw [h] at hf
      exact absurd hf List.not_mem_nil
    · rw [h] at hf
      exact isControl_ackSettings hf
    · rw [h] at hf
      exact isControl_windowUpdate hf
  refine ⟨(readLoop (responseStep sid) s.closed (0, []) s.reads).2.1, ?_,
    readLoop_sent hstep s.closed⟩
  rw [readResponse, Session.read]
  rcases readLoop (responseStep sid) s.closed (0, []) s.reads with
    ⟨message | ⟨status, body⟩, out, rest⟩
  · rfl
  · rfl

/-! ## Requests -/

/-- The frames of a request, with what a reading loop sends behind them, are framed exactly
if the body and the header block fit. -/
theorem framed_iff {sid : UInt32} {block body : List UInt8} {out : List Frame}
    (hout : ∀ fr ∈ out, IsControl fr) :
    Framed ([frame ftHeaders flEndHeaders sid block, frame ftData flEndStream sid body] ++ out)
        body ↔
      body.length ≤ maxFrameSize ∧ block.length ≤ maxFrameSize := by
  have hrest : out.filter isRequest = [] :=
    List.filter_eq_nil_iff.mpr fun fr hfr h => by rw [(hout fr hfr).kind] at h; cases h
  have hdata : out.filter (fun fr => fr.typ = ftData) = [] := by
    refine List.filter_eq_nil_iff.mpr fun fr hfr h => ?_
    have hkind := (hout fr hfr).kind
    rw [isRequest, h, Bool.or_true] at hkind
    cases hkind
  constructor
  · intro h
    have hblock := h.small (frame ftHeaders flEndHeaders sid block) (by simp)
    have hbody := h.small (frame ftData flEndStream sid body) (by simp)
    exact ⟨hbody, hblock⟩
  · rintro ⟨hbody, hblock⟩
    have hmax : maxFrameSize < 2 ^ 24 := by decide
    have hfirst : (frame ftHeaders flEndHeaders sid block).endsStream = false :=
      (by decide : decide (flEndHeaders &&& flEndStream ≠ 0) = false)
    have hlast : (frame ftData flEndStream sid body).endsStream = true :=
      (by decide : decide (flEndStream &&& flEndStream ≠ 0) = true)
    refine ⟨fun fr hfr => ?_, ?_, ?_, splits_encode fun fr hfr => ?_⟩
    · rw [List.mem_append, List.mem_cons, List.mem_singleton] at hfr
      rcases hfr with (rfl | rfl) | hfr
      · exact hblock
      · exact hbody
      · exact (hout fr hfr).small.trans (by decide)
    · rw [List.filter_append, hdata]
      exact List.append_nil body
    · refine ⟨[frame ftHeaders flEndHeaders sid block], frame ftData flEndStream sid body, ?_,
        hlast, fun fr hfr => ?_⟩
      · rw [List.filter_append, hrest]
        rfl
      · rw [List.mem_singleton.mp hfr]
        exact hfirst
    · rw [List.mem_append, List.mem_cons, List.mem_singleton] at hfr
      rcases hfr with (rfl | rfl) | hfr
      · exact encodable_frame (hblock.trans_lt hmax)
      · exact encodable_frame (hbody.trans_lt hmax)
      · exact (hout fr hfr).encodable

/-- A request that is followed by control frames is framed exactly if it fits. -/
theorem emits_iff {s s' : Session} {path : String} {body : List UInt8} {out : List Frame}
    (hout : ∀ fr ∈ out, IsControl fr)
    (hsent : s'.sent = s.sent ++
      [frame ftHeaders flEndHeaders s.nextStream (reqHeaders s.authority path body.length),
        frame ftData flEndStream s.nextStream body] ++ out) :
    Emits s s' body ↔ Fits s.authority path body := by
  rw [Fits, ← length_reqHeaders, ← framed_iff hout, Emits, hsent, List.append_assoc]
  constructor
  · rintro ⟨frames, heq, h⟩
    rwa [List.append_cancel_left heq]
  · exact fun h => ⟨_, rfl, h⟩

theorem postStream_emits (path : String) (body : List UInt8) (s : Session) :
    Emits s (postStream path body s).2 body ↔ Fits s.authority path body := by
  have hnone : ∀ fr ∈ ([] : List Frame), IsControl fr := fun fr h => absurd h List.not_mem_nil
  refine emits_iff hnone ?_
  rw [List.append_nil]
  rfl

theorem postJson_emits (path : String) (body : List UInt8) (s : Session) :
    Emits s (postJson path body s).2 body ↔ Fits s.authority path body := by
  obtain ⟨out, hsent, hout⟩ := readResponse_sent s.nextStream
    ({ s with nextStream := s.nextStream.next }.send
      [frame ftHeaders flEndHeaders s.nextStream (reqHeaders s.authority path body.length),
        frame ftData flEndStream s.nextStream body])
  exact emits_iff hout hsent

end NetMap.H2

namespace NetMap.AsyncH2

/-- The async client sends the same requests. -/
theorem postStream_eq (path : String) (body : List UInt8) (s : H2.Session) :
    postStream path body s = H2.postStream path body s := rfl

theorem postJson_eq (path : String) (body : List UInt8) (s : H2.Session) :
    postJson path body s = H2.postJson path body s := rfl

end NetMap.AsyncH2

namespace NetMap.H2

/-- **A request is framed if and only if its body and its header block fit into a frame**,
for both clients and both requests. -/
theorem posts_framed (path : String) (body : List UInt8) (s : Session) :
    (Emits s (postJson path body s).2 body ↔ Fits s.authority path body) ∧
      (Emits s (postStream path body s).2 body ↔ Fits s.authority path body) ∧
      (Emits s (AsyncH2.postJson path body s).2 body ↔ Fits s.authority path body) ∧
      (Emits s (AsyncH2.postStream path body s).2 body ↔ Fits s.authority path body) := by
  rw [AsyncH2.postJson_eq, AsyncH2.postStream_eq]
  exact ⟨postJson_emits path body s, postStream_emits path body s, postJson_emits path body s,
    postStream_emits path body s⟩

/-- **A body of 16385 bytes goes out in one frame.** -/
theorem large_body_unframed :
    ¬ Emits ⟨[], "closed", [], ⟨1, rfl⟩, "controlplane.tailscale.com"⟩
      (postStream "/machine/map" (List.replicate 16385 0)
        ⟨[], "closed", [], ⟨1, rfl⟩, "controlplane.tailscale.com"⟩).2
      (List.replicate 16385 0) := by
  rw [postStream_emits]
  rintro ⟨hbody, -⟩
  rw [List.length_replicate] at hbody
  exact absurd hbody (by decide)

end NetMap.H2
