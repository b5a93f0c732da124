/-
# The network map and the framing of its response

The streamed response is the list of its nonempty payloads (`response`).  The reader hands
out their bytes in order, and its address is the first that a payload by itself scans to
(`readToEnd_spec`).

The scan of the whole body may find another address: a payload that ends inside the first
address shows a part of it, or none.  `AddressFramed` says where the payloads may be cut, so
that the two agree (`findSome_scan_of_framed`); cut anywhere else they disagree, unless an
address opens again behind (`framed_or_shownAgain`).  `LengthFramed` says when the length in
front is taken off alike, and `fetchPeers_eq_of_framed` puts the two together.
-/
import Mathlib.Data.List.TakeWhile
import PySpell.NetMap

open Text

namespace NetMap

/-! ## Payloads -/

/-- The payload of a frame, if it is not empty. -/
def Frame.chunk (fr : Frame) : List (List UInt8) := if fr.payload ≠ [] then [fr.payload] else []

theorem flatten_chunk (fr : Frame) : fr.chunk.flatten = fr.payload := by
  unfold Frame.chunk
  split
  · simp
  · next h => rw [not_not.mp h, List.flatten_nil]

/-- The nonempty payloads of a response. -/
def response (sid : UInt32) : List Frame → Outcome H2Error (List (List UInt8))
  | [] => .err .closed
  | fr :: frames =>
    if fr.isOther sid then response sid frames
    else if fr.typ = ftHeaders then if fr.endsStream then .ok [] else response sid frames
    else if fr.typ = ftData then
      if fr.endsStream then .ok fr.chunk
      else response sid frames >>= fun chunks => .ok (fr.chunk ++ chunks)
    else if fr.typ = ftGoaway then .err .goaway
    else response sid frames

/-- **The buffered body** is what the payloads add up to. -/
theorem readBody_eq (sid : UInt32) (frames : List Frame) : ∀ body : List UInt8,
    readBody sid body frames =
      response sid frames >>= fun chunks => .ok (body ++ chunks.flatten) := by
  induction frames with
  | nil => exact fun body => rfl
  | cons fr frames ih =>
    intro body
    rw [readBody, response]
    split_ifs
    · exact ih body
    · rw [Outcome.ok_bind, List.flatten_nil, List.append_nil]
    · exact ih body
    · rw [Outcome.ok_bind, flatten_chunk]
    · rw [ih]
      cases response sid frames with
      | ok chunks =>
        simp only [Outcome.ok_bind, List.flatten_append, flatten_chunk, List.append_assoc]
      | _ => rfl
    · rfl
    · exact ih body

/-- **One chunk**: the next payload, or the end. -/
theorem readResponseChunk_cases {sid : UInt32} {frames : List Frame} :
    ∀ {chunks : List (List UInt8)}, response sid frames = .ok chunks →
    (chunks = [] ∧ ∃ rest, readResponseChunk sid frames = .ok ((none, true), rest)) ∨
    ∃ c chunks' last rest, chunks = c :: chunks' ∧ c ≠ [] ∧
      readResponseChunk sid frames = .ok ((some c, last), rest) ∧
      (last = true ∧ chunks' = [] ∨ last = false ∧ response sid rest = .ok chunks') := by
  induction frames with
  | nil => exact fun h => by cases h
  | cons fr frames ih =>
    intro chunks h
    rw [response] at h
    rw [readResponseChunk]
    unfold Frame.chunk at h
    split_ifs at h ⊢
    · exact ih h
    · obtain rfl := Outcome.ok.inj h
      exact Or.inl ⟨rfl, frames, rfl⟩
    · exact ih h
    · next hne hend =>
      obtain rfl := Outcome.ok.inj h
      exact Or.inr ⟨_, [], _, frames, rfl, hne, rfl, Or.inl ⟨hend, rfl⟩⟩
    · next hne hend =>
      obtain ⟨chunks', hchunks', hcons⟩ := Outcome.bind_eq_ok.mp h
      obtain rfl := Outcome.ok.inj hcons
      exact Or.inr ⟨_, chunks', _, frames, rfl, hne, rfl, Or.inr ⟨by simpa using hend, hchunks'⟩⟩
    · obtain rfl := Outcome.ok.inj h
      exact Or.inl ⟨rfl, frames, rfl⟩
    · obtain ⟨chunks', hchunks', hcons⟩ := Outcome.bind_eq_ok.mp h
      obtain rfl := Outcome.ok.inj hcons
      exact ih hchunks'
    · exact ih h

/-- A response brings no more bytes than came in. -/
theorem length_response_le {sid : UInt32} {frames : List Frame} :
    ∀ {chunks : List (List UInt8)}, response sid frames = .ok chunks →
      chunks.flatten.length ≤ totalBytes frames := by
  induction frames with
  | nil => exact fun h => by cases h
  | cons fr frames ih =>
    intro chunks h
    have hcons : totalBytes (fr :: frames) = fr.payload.length + totalBytes frames := by
      simp [totalBytes]
    rw [response] at h
    rw [hcons]
    split_ifs at h
    · exact (ih h).trans (Nat.le_add_left _ _)
    · obtain rfl := Outcome.ok.inj h
      exact Nat.zero_le _
    · exact (ih h).trans (Nat.le_add_left _ _)
    · obtain rfl := Outcome.ok.inj h
      rw [flatten_chunk]
      exact Nat.le_add_right _ _
    · obtain ⟨chunks', hchunks', happend⟩ := Outcome.bind_eq_ok.mp h
      obtain rfl := Outcome.ok.inj happend
      rw [List.flatten_append, List.length_append, flatten_chunk]
      exact Nat.add_le_add_left (ih hchunks') _
    · exact (ih h).trans (Nat.le_add_left _ _)

/-! ## Reading -/

/-- The reader has these payloads still to come. -/
def Expects (sid : UInt32) (b : H2Body) (chunks : List (List UInt8)) : Prop :=
  (b.eof = true ∧ chunks = []) ∨ (b.eof = false ∧ response sid b.frames = .ok chunks)

/-- The bytes of payloads, when the length in front is taken off the first of them. -/
def stripFirst : List (List UInt8) → List UInt8
  | [] => []
  | c :: chunks => stripWirePrefix c ++ chunks.flatten

/-- What the reader has still to hand out. -/
def H2Body.rest (b : H2Body) (chunks : List (List UInt8)) : List UInt8 :=
  b.buf.drop b.pos ++ if b.prefixStripped then chunks.flatten else stripFirst chunks

theorem drop_receive (b : H2Body) (c : List UInt8) (last : Bool) (frames : List Frame) :
    c.drop (b.receive c last frames).pos = if b.prefixStripped then c else stripWirePrefix c := by
  unfold H2Body.receive stripWirePrefix
  cases b.prefixStripped
  · cases hasWirePrefix c <;> rfl
  · rfl

/-- A payload leaves something to read, also behind the length. -/
theorem pos_receive_lt (b : H2Body) {c : List UInt8} (hc : c ≠ []) (last : Bool)
    (frames : List Frame) : (b.receive c last frames).pos < c.length := by
  have hpos := List.length_pos_of_ne_nil hc
  unfold H2Body.receive
  dsimp only
  split
  · next h =>
    simp only [hasWirePrefix, Bool.and_eq_true, decide_eq_true_eq] at h
    omega
  · exact hpos

/-- A round of the loop that finds bytes in the buffer. -/
theorem readLoop_of_lt {n : ℕ} (hn : 0 < n) (sid : UInt32) (fuel : ℕ) {b : H2Body}
    (h : b.pos < b.buf.length) : ∃ bytes pos, readLoop sid n (fuel + 1) b =
      .ok (bytes, { b with pos := pos }) ∧ bytes ≠ [] ∧ pos ≤ b.buf.length ∧
        b.buf.drop b.pos = bytes ++ b.buf.drop pos := by
  refine ⟨(b.buf.drop b.pos).take n, b.pos + min n (b.buf.length - b.pos), ?_, ?_, by omega, ?_⟩
  · rw [readLoop, if_neg (by omega)]
  · apply List.ne_nil_of_length_pos
    rw [List.length_take, List.length_drop]
    omega
  · have htake := (List.take_append_drop n (b.buf.drop b.pos)).symm
    rw [List.drop_drop] at htake
    rcases Nat.le_total n (b.buf.length - b.pos) with hle | hle
    · rwa [Nat.min_eq_left hle]
    · have hend : b.buf.length ≤ b.pos + (b.buf.length - b.pos) := by omega
      have hall : (b.buf.drop b.pos).length ≤ n := by rwa [List.length_drop]
      rw [Nat.min_eq_right hle, List.drop_eq_nil_of_le hend, List.append_nil,
        List.take_of_length_le hall]

/-- **A read**: some of the bytes that are left, or the end. -/
theorem read_spec {sid : UInt32} {n : ℕ} (hn : 0 < n) {b : H2Body} {chunks : List (List UInt8)}
    (hb : Expects sid b chunks) :
    (b.rest chunks = [] ∧ chunks.findSome? scanTailscaleIp = none ∧
      ∃ b', b.read sid n = .ok ([], b') ∧ b'.ip = b.ip) ∨
    ∃ bytes b' chunks', b.read sid n = .ok (bytes, b') ∧ bytes ≠ [] ∧ Expects sid b' chunks' ∧
      b.rest chunks = bytes ++ b'.rest chunks' ∧
      b'.ip.or (chunks'.findSome? scanTailscaleIp) =
        b.ip.or (chunks.findSome? scanTailscaleIp) := by
  unfold H2Body.read H2Body.rest
  by_cases hpos : b.pos < b.buf.length
  · obtain ⟨bytes, pos, hread, hne, -, hdrop⟩ := readLoop_of_lt hn sid (b.frames.length + 1) hpos
    refine Or.inr ⟨bytes, _, chunks, hread, hne, hb, ?_, rfl⟩
    rw [hdrop, List.append_assoc]
  -- the buffer is used up
  have hend : b.buf.length ≤ b.pos := Nat.not_lt.mp hpos
  rw [readLoop, if_pos hend, List.drop_eq_nil_of_le hend, List.nil_append]
  rcases hb with ⟨heof, rfl⟩ | ⟨heof, hresponse⟩
  · rw [if_pos heof]
    exact Or.inl ⟨by cases b.prefixStripped <;> rfl, rfl, b, rfl, rfl⟩
  have hnot : ¬ b.eof = true := by
    rw [heof]
    exact Bool.false_ne_true
  rw [if_neg hnot]
  rcases readResponseChunk_cases hresponse with
    ⟨rfl, rest, hchunk⟩ | ⟨c, chunks', last, rest, rfl, hc, hchunk, hnext⟩
  · rw [hchunk]
    exact Or.inl ⟨by cases b.prefixStripped <;> rfl, rfl, _, rfl, rfl⟩
  · rw [hchunk]
    obtain ⟨bytes, pos, hread, hne, -, hdrop⟩ :=
      readLoop_of_lt hn sid b.frames.length (pos_receive_lt b hc last rest)
    refine Or.inr ⟨bytes, _, chunks', hread, hne, ?_, ?_, ?_⟩
    · exact hnext
    · have hchunk' : c.drop (b.receive c last rest).pos = bytes ++ c.drop pos := hdrop
      rw [drop_receive] at hchunk'
      change _ = bytes ++ (c.drop pos ++ chunks'.flatten)
      rw [← List.append_assoc, ← hchunk']
      cases b.prefixStripped <;> rfl
    · rw [List.findSome?_cons]
      unfold H2Body.receive
      cases b.ip <;> cases scanTailscaleIp c <;> rfl

/-- **Everything that is read**, and the address that the reader ends with. -/
theorem readToEnd_spec {sid : UInt32} {sizes : ℕ → ℕ} (hsizes : ∀ k, 0 < sizes k) :
    ∀ {fuel k : ℕ} {b : H2Body} {chunks : List (List UInt8)}, Expects sid b chunks →
      (b.rest chunks).length < fuel → ∃ b', readToEnd sid sizes fuel k b =
        .ok (b.rest chunks, b') ∧ b'.ip = b.ip.or (chunks.findSome? scanTailscaleIp) := by
  intro fuel
  induction fuel with
  | zero => exact fun _ h => absurd h (Nat.not_lt_zero _)
  | succ fuel ih =>
    intro k b chunks hb hfuel
    rw [readToEnd]
    rcases read_spec (hsizes k) hb with ⟨hrest, hscan, b', hread, hip⟩ |
      ⟨bytes, b', chunks', hread, hne, hb', hrest, hip⟩
    · rw [hread, hrest, hscan]
      exact ⟨b', rfl, by rw [hip]; cases b.ip <;> rfl⟩
    · have hpos := List.length_pos_of_ne_nil hne
      rw [hrest, List.length_append] at hfuel
      obtain ⟨b'', hmore, hip'⟩ := @ih (k + 1) b' chunks' hb' (by omega)
      refine ⟨b'', ?_, hip'.trans hip⟩
      rw [hread, Outcome.ok_bind]
      dsimp only
      rw [if_neg hne, hmore, hrest]
      rfl

/-! ## The address -/

theorem fromUtf8_of_acceptAddress {text : List UInt8} {s : String}
    (h : acceptAddress text = some s) : fromUtf8 text = .ok s := by
  unfold acceptAddress at h
  split at h
  · cases h
  · next s' hs =>
    split at h
    · rw [hs, Option.some_inj.mp h]
    · cases h

theorem addressStart_ne_nil : addressStart ≠ [] := by decide

/-- The text of an address has the four bytes that were looked for. -/
theorem length_addressText {raw : List UInt8} {pos : ℕ}
    (h : Search.position addressStart raw = some pos) : 4 ≤ (addressText raw pos).length := by
  obtain ⟨w, hw⟩ := ((Search.position_eq_some addressStart_ne_nil).mp h).1
  have hdrop : raw.drop (pos + 1) = utf8 "100." ++ w := by
    rw [← List.drop_drop, ← hw]
    rfl
  have hin : ∀ b ∈ utf8 "100.", inAddress b = true := List.all_eq_true.mp (by decide)
  rw [addressText, hdrop, List.takeWhile_append_of_pos hin, List.length_append]
  exact Nat.le_add_right 4 _

theorem scanTailscaleIp_of_position {raw : List UInt8} {pos : ℕ}
    (h : Search.position addressStart raw = some pos) :
    scanTailscaleIp raw = acceptAddress (addressText raw pos) := by
  rw [scanTailscaleIp, h]
  rfl

theorem scanTailscaleIp_eq_none {raw : List UInt8}
    (h : Search.position addressStart raw = none) : scanTailscaleIp raw = none := by
  rw [scanTailscaleIp, h]
  rfl

/-- **The scan does not see the length in front.** -/
theorem scanTailscaleIp_stripWirePrefix (raw : List UInt8) :
    scanTailscaleIp (stripWirePrefix raw) = scanTailscaleIp raw := by
  unfold stripWirePrefix
  split
  · next h =>
    simp only [hasWirePrefix, Bool.and_eq_true, decide_eq_true_eq] at h
    obtain ⟨⟨hlen, -⟩, hbrace⟩ := h
    have htake : (raw.take 4).length = 4 := by
      rw [List.length_take]
      omega
    -- a match that starts in the length would have the brace in it
    have hno : ∀ j < (raw.take 4).length, ¬ addressStart <+: (raw.take 4 ++ raw.drop 4).drop j := by
      rintro j hj ⟨w, hw⟩
      rw [htake] at hj
      rw [List.take_append_drop] at hw
      have hget : (addressStart ++ w)[4 - j]? = some '{'.toUInt8 := by
        rw [hw, List.getElem?_drop, Nat.add_sub_cancel' (by omega), hbrace]
      have hcases : j = 0 ∨ j = 1 ∨ j = 2 ∨ j = 3 := by omega
      rcases hcases with rfl | rfl | rfl | rfl <;> cases hget
    have hshift := Search.position_append hno
    rw [List.take_append_drop, htake] at hshift
    cases hpos : Search.position addressStart (raw.drop 4) with
    | none =>
      rw [hpos] at hshift
      rw [scanTailscaleIp_eq_none hpos, scanTailscaleIp_eq_none hshift]
    | some pos =>
      rw [hpos] at hshift
      rw [scanTailscaleIp_of_position hpos, scanTailscaleIp_of_position hshift, addressText,
        addressText, List.drop_drop, show 4 + (pos + 1) = pos + 4 + 1 by omega]
  · rfl

/-! ### An address in the body -/

/-- The first address of the body opens in the frame `c`, at this position of the body. -/
structure OpensIn (chunks before : List (List UInt8)) (c : List UInt8)
    (after : List (List UInt8)) (pos : ℕ) : Prop where
  split : chunks = before ++ c :: after
  found : Search.position addressStart chunks.flatten = some pos
  start : before.flatten.length ≤ pos
  inside : pos < before.flatten.length + c.length

/-- **Where the frames may be cut**: the frame with the opening quote of the first address
holds the whole text of it.  If that text is no address, the frame shows none either, and
no later frame has another opening. -/
def AddressFramed (chunks : List (List UInt8)) : Prop :=
  ∀ before c after pos, OpensIn chunks before c after pos →
    if (scanTailscaleIp chunks.flatten).isSome then
      pos + 1 + (addressText chunks.flatten pos).length ≤ before.flatten.length + c.length
    else scanTailscaleIp c = none ∧ ∀ c' ∈ after, Search.position addressStart c' = none

/-- A frame behind the one with the first opening has another. -/
def ShownAgain (chunks : List (List UInt8)) : Prop :=
  ∃ before c after pos, OpensIn chunks before c after pos ∧
    ∃ c' ∈ after, Search.position addressStart c' ≠ none

/-- A frame that ends before the first match does scans to nothing. -/
theorem scan_eq_none_of_end {u c v : List UInt8}
    (h : ∀ pos, Search.position addressStart (u ++ (c ++ v)) = some pos →
      u.length + c.length < pos + 5) : scanTailscaleIp c = none :=
  scanTailscaleIp_eq_none (Search.position_block_eq_none addressStart_ne_nil h)

/-- The frames before the first match scan to nothing. -/
theorem findSome_scan_before {v : List UInt8} : ∀ {before : List (List UInt8)} {u : List UInt8},
    (∀ pos, Search.position addressStart (u ++ (before.flatten ++ v)) = some pos →
      u.length + before.flatten.length ≤ pos) → before.findSome? scanTailscaleIp = none := by
  intro before
  induction before with
  | nil => exact fun _ => rfl
  | cons c before ih =>
    intro u h
    rw [List.flatten_cons, List.append_assoc] at h
    have hc : scanTailscaleIp c = none := scan_eq_none_of_end fun pos hpos => by
      have hle := h pos hpos
      rw [List.length_append] at hle
      omega
    rw [List.findSome?_cons, hc]
    refine @ih (u ++ c) fun pos hpos => ?_
    rw [List.append_assoc] at hpos
    have hle := h pos hpos
    rw [List.length_append] at hle ⊢
    omega

/-! ### The framed address -/

/-- **The frame with the opening quote** decides which address is found. -/
theorem findSome_scan_iff_of_block {before after : List (List UInt8)} {c : List UInt8} {pos : ℕ}
    (hpos : Search.position addressStart (before ++ c :: after).flatten = some pos)
    (hstart : before.flatten.length ≤ pos) (hend : pos < before.flatten.length + c.length) :
    (before ++ c :: after).findSome? scanTailscaleIp =
        scanTailscaleIp (before ++ c :: after).flatten ↔
      ((scanTailscaleIp (before ++ c :: after).flatten).isSome ∧
        pos + 1 + (addressText (before ++ c :: after).flatten pos).length ≤
          before.flatten.length + c.length) ∨
      (scanTailscaleIp c = none ∧
        after.findSome? scanTailscaleIp = scanTailscaleIp (before ++ c :: after).flatten) := by
  have hbody : (before ++ c :: after).flatten = before.flatten ++ (c ++ after.flatten) := by
    rw [List.flatten_append, List.flatten_cons]
  -- the frames before the match do not hold it
  have hbefore : before.findSome? scanTailscaleIp = none := by
    refine findSome_scan_before (u := []) (v := c ++ after.flatten) fun p hp => ?_
    rw [List.nil_append, ← hbody, hpos] at hp
    rw [← Option.some_inj.mp hp, List.length_nil, Nat.zero_add]
    exact hstart
  have hfind : (before ++ c :: after).findSome? scanTailscaleIp =
      (scanTailscaleIp c).or (after.findSome? scanTailscaleIp) := by
    rw [List.findSome?_append, hbefore, Option.none_or, List.findSome?_cons]
    cases scanTailscaleIp c <;> rfl
  have htext := length_addressText hpos
  have hscan := scanTailscaleIp_of_position hpos
  rw [hfind]
  rw [hbody] at hpos htext hscan ⊢
  -- from here on only the three parts of the body matter
  generalize hu : before.flatten = u at *
  generalize hv : after.flatten = v at *
  by_cases hfit : pos + 5 ≤ u.length + c.length
  · -- the frame finds the match, and shows what it holds of the text
    have hq : pos - u.length + 1 ≤ c.length := by omega
    have hposc := Search.position_block_eq_some addressStart_ne_nil hpos hstart hfit
    have hscanc := scanTailscaleIp_of_position hposc
    have hdrop := Search.drop_block (u := u) (v := v) hq
    rw [show u.length + (pos - u.length + 1) = pos + 1 by omega] at hdrop
    rw [addressText, hdrop] at hscan ⊢
    rw [addressText] at hscanc
    have hcut := Search.length_takeWhile_append_le_iff (q := inAddress)
      (d := c.drop (pos - u.length + 1)) (v := v)
    rw [List.length_drop] at hcut
    -- what is shown depends on whether the text goes on behind the frame
    constructor
    · intro heq
      cases hc : scanTailscaleIp c with
      | none =>
        rw [hc, Option.none_or] at heq
        exact Or.inr ⟨rfl, heq⟩
      | some s =>
        rw [hc, Option.some_or] at heq
        refine Or.inl ⟨by rw [← heq]; rfl, ?_⟩
        have hprefix : (c.drop (pos - u.length + 1)).takeWhile inAddress <+:
            (c.drop (pos - u.length + 1) ++ v).takeWhile inAddress := by
          rw [List.takeWhile_append]
          split
          · next hall =>
            rw [(List.takeWhile_prefix inAddress).eq_of_length hall]
            exact List.prefix_append _ _
          · exact List.prefix_rfl
        obtain ⟨x, hx⟩ := hprefix
        have hone := fromUtf8_of_acceptAddress (hscanc.symm.trans hc)
        have hall := fromUtf8_of_acceptAddress (hscan.symm.trans heq.symm)
        rw [← hx] at hall
        have hnil := fromUtf8_append_eq hone hall
        rw [hnil, List.append_nil] at hx
        have := hcut.mpr hx.symm
        omega
    · rintro (⟨hsome, hlen⟩ | ⟨hnone, heq⟩)
      · have hsame := hcut.mp (by omega)
        rw [hsame, ← hscanc] at hscan
        rw [hscan] at hsome ⊢
        obtain ⟨s, hs⟩ := Option.isSome_iff_exists.mp hsome
        rw [hs, Option.some_or]
      · rw [hnone, Option.none_or, heq]
  · -- the frame ends inside the match
    have hnone : scanTailscaleIp c = none := scan_eq_none_of_end (u := u) (v := v) fun p hp => by
      rw [hpos] at hp
      rw [← Option.some_inj.mp hp]
      omega
    rw [hnone, Option.none_or]
    constructor
    · exact fun heq => Or.inr ⟨rfl, heq⟩
    · rintro (⟨-, hlen⟩ | ⟨-, heq⟩)
      · omega
      · exact heq

/-- Every position of the body lies in a frame. -/
theorem exists_block {chunks : List (List UInt8)} : ∀ {pos : ℕ}, pos < chunks.flatten.length →
    ∃ before c after, chunks = before ++ c :: after ∧ before.flatten.length ≤ pos ∧
      pos < before.flatten.length + c.length := by
  induction chunks with
  | nil => exact fun h => absurd h (Nat.not_lt_zero _)
  | cons c chunks ih =>
    intro pos hpos
    rw [List.flatten_cons, List.length_append] at hpos
    by_cases hc : pos < c.length
    · exact ⟨[], c, chunks, rfl, Nat.zero_le _, by simpa using hc⟩
    · obtain ⟨before, c', after, rfl, hstart, hend⟩ := @ih (pos - c.length) (by omega)
      refine ⟨c :: before, c', after, rfl, ?_, ?_⟩
      · rw [List.flatten_cons, List.length_append]
        omega
      · rw [List.flatten_cons, List.length_append]
        omega

/-- The first opening of the body lies in a frame. -/
theorem exists_opensIn {chunks : List (List UInt8)} {pos : ℕ}
    (hpos : Search.position addressStart chunks.flatten = some pos) :
    ∃ before c after, OpensIn chunks before c after pos := by
  have hmatch := ((Search.position_eq_some addressStart_ne_nil).mp hpos).1
  have hlen := Search.add_length_le_of_prefix addressStart_ne_nil hmatch
  have hfive : addressStart.length = 5 := rfl
  obtain ⟨before, c, after, hsplit, hstart, hend⟩ := @exists_block chunks pos (by omega)
  exact ⟨before, c, after, hsplit, hpos, hstart, hend⟩

/-- The frame with the first opening decides which address is found. -/
theorem OpensIn.findSome_scan_iff {chunks before after : List (List UInt8)} {c : List UInt8}
    {pos : ℕ} (h : OpensIn chunks before c after pos) :
    chunks.findSome? scanTailscaleIp = scanTailscaleIp chunks.flatten ↔
      ((scanTailscaleIp chunks.flatten).isSome ∧
        pos + 1 + (addressText chunks.flatten pos).length ≤ before.flatten.length + c.length) ∨
      (scanTailscaleIp c = none ∧
        after.findSome? scanTailscaleIp = scanTailscaleIp chunks.flatten) := by
  obtain ⟨rfl, hpos, hstart, hend⟩ := h
  exact findSome_scan_iff_of_block hpos hstart hend

/-- **The frames scan to the address of the body**, if they are cut where they may be. -/
theorem findSome_scan_of_framed {chunks : List (List UInt8)} (h : AddressFramed chunks) :
    chunks.findSome? scanTailscaleIp = scanTailscaleIp chunks.flatten := by
  cases hpos : Search.position addressStart chunks.flatten with
  | none =>
    rw [scanTailscaleIp_eq_none hpos]
    refine findSome_scan_before (u := []) (v := []) fun pos h => ?_
    rw [List.nil_append, List.append_nil, hpos] at h
    cases h
  | some pos =>
    obtain ⟨before, c, after, hopens⟩ := exists_opensIn hpos
    have hcut := h before c after pos hopens
    refine hopens.findSome_scan_iff.mpr ?_
    split_ifs at hcut with hsome
    · exact Or.inl ⟨hsome, hcut⟩
    · obtain ⟨hc, hafter⟩ := hcut
      refine Or.inr ⟨hc, ?_⟩
      rw [Option.not_isSome_iff_eq_none.mp hsome, List.findSome?_eq_none_iff]
      exact fun c' hc' => scanTailscaleIp_eq_none (hafter c' hc')

/-- **Cut anywhere else, they do not**, unless a later frame has another opening: then it is
up to that frame whether the address is the same. -/
theorem framed_or_shownAgain {chunks : List (List UInt8)}
    (h : chunks.findSome? scanTailscaleIp = scanTailscaleIp chunks.flatten) :
    AddressFramed chunks ∨ ShownAgain chunks := by
  refine or_iff_not_imp_right.mpr fun hagain before c after pos hopens => ?_
  -- without another opening no later frame scans to an address
  have hafter : ∀ c' ∈ after, Search.position addressStart c' = none := fun c' hc' =>
    not_not.mp fun hne => hagain ⟨before, c, after, pos, hopens, c', hc', hne⟩
  have hnone : after.findSome? scanTailscaleIp = none :=
    List.findSome?_eq_none_iff.mpr fun c' hc' => scanTailscaleIp_eq_none (hafter c' hc')
  rcases hopens.findSome_scan_iff.mp h with ⟨hsome, hcut⟩ | ⟨hc, heq⟩
  · rw [if_pos hsome]
    exact hcut
  · rw [if_neg (by rw [← heq, hnone]; exact Bool.false_ne_true)]
    exact ⟨hc, hafter⟩

/-! ## The length in front -/

/-- A length in front of the body lies in the first frame together with the brace behind it,
unless it is white space, which JSON skips. -/
def LengthFramed (chunks : List (List UInt8)) : Prop :=
  hasWirePrefix chunks.flatten = true →
    (∀ c, chunks.head? = some c → 5 ≤ c.length) ∨ ∀ b ∈ chunks.flatten.take 4, isBlank b = true

theorem hasWirePrefix_append {c : List UInt8} (h : 5 ≤ c.length) (x : List UInt8) :
    hasWirePrefix (c ++ x) = hasWirePrefix c := by
  unfold hasWirePrefix
  rw [List.getElem?_append_left (by omega), List.getElem?_append_left (by omega),
    decide_eq_true h, decide_eq_true (h.trans (by rw [List.length_append]; omega))]

theorem hasWirePrefix_of_length_lt {c : List UInt8} (h : c.length < 5) :
    hasWirePrefix c = false := by
  unfold hasWirePrefix
  rw [decide_eq_false (by omega), Bool.false_and, Bool.false_and]

/-- What the deserialiser gets: the body, or the body with the length in front. -/
theorem stripFirst_cases (chunks : List (List UInt8)) :
    (stripFirst chunks = stripWirePrefix chunks.flatten ∧
      (hasWirePrefix chunks.flatten = true → ∀ c, chunks.head? = some c → 5 ≤ c.length)) ∨
    (stripFirst chunks = chunks.flatten ∧ hasWirePrefix chunks.flatten = true ∧
      ∃ c, chunks.head? = some c ∧ c.length < 5) := by
  cases chunks with
  | nil => exact Or.inl ⟨rfl, nofun⟩
  | cons c chunks =>
    rw [stripFirst, List.flatten_cons]
    by_cases hc : 5 ≤ c.length
    · refine Or.inl ⟨?_, fun _ c' h => by rwa [← Option.some_inj.mp h]⟩
      unfold stripWirePrefix
      rw [hasWirePrefix_append hc]
      split
      · rw [List.drop_append_of_le_length (by omega)]
      · rfl
    · have hstrip : stripWirePrefix c = c := by
        rw [stripWirePrefix, hasWirePrefix_of_length_lt (by omega)]
        rfl
      rw [hstrip]
      cases hall : hasWirePrefix (c ++ chunks.flatten) with
      | true => exact Or.inr ⟨rfl, rfl, c, rfl, by omega⟩
      | false =>
        refine Or.inl ⟨?_, nofun⟩
        rw [stripWirePrefix, hall]
        rfl

/-- **When the bytes that the deserialiser gets are read like the body.** -/
theorem streamResp_stripFirst {serde : Serde} (hserde : serde.Correct)
    {chunks : List (List UInt8)} {m : MapStreamResp}
    (hm : serde.streamResp (stripWirePrefix chunks.flatten) = some m) :
    (LengthFramed chunks ∧ serde.streamResp (stripFirst chunks) = some m) ∨
      (¬ LengthFramed chunks ∧ serde.streamResp (stripFirst chunks) = none) := by
  rcases stripFirst_cases chunks with ⟨heq, hfive⟩ | ⟨heq, hwire, c, hc, hshort⟩
  · rw [heq]
    exact Or.inl ⟨fun hwire => Or.inl (hfive hwire), hm⟩
  rw [heq]
  rw [stripWirePrefix, if_pos hwire] at hm
  have hsplit := List.take_append_drop 4 chunks.flatten
  by_cases hblank : ∀ b ∈ chunks.flatten.take 4, isBlank b = true
  · refine Or.inl ⟨fun _ => Or.inr hblank, ?_⟩
    rw [← hsplit, hserde.blank _ _ hblank, hm]
  · refine Or.inr ⟨fun hframed => ?_, ?_⟩
    · rcases hframed hwire with hfive | hall
      · have := hfive c hc
        omega
      · exact hblank hall
    · have hbrace : (chunks.flatten.drop 4).head? = some '{'.toUInt8 := by
        simp only [hasWirePrefix, Bool.and_eq_true, decide_eq_true_eq] at hwire
        rw [List.head?_drop]
        exact hwire.2
      rw [← hsplit]
      refine hserde.front _ _ m hm hbrace ?_
      simpa using hblank

/-! ## The map -/

/-- The frames of a response are cut neither in the length in front nor in the address. -/
def Framed (sid : UInt32) (frames : List Frame) : Prop :=
  ∃ chunks, response sid frames = .ok chunks ∧ LengthFramed chunks ∧ AddressFramed chunks

/-- They are not cut in the length, and an address opens again behind the first one. -/
def FramedAgain (sid : UInt32) (frames : List Frame) : Prop :=
  ∃ chunks, response sid frames = .ok chunks ∧ LengthFramed chunks ∧ ShownAgain chunks

/-- `fetch_peers` on the payloads of a complete response. -/
theorem fetchPeers_eq (serde : Serde) {sizes : ℕ → ℕ} (hsizes : ∀ k, 0 < sizes k) {sid : UInt32}
    {frames : List Frame} {chunks : List (List UInt8)} (h : response sid frames = .ok chunks) :
    fetchPeers serde sizes sid frames =
      match serde.streamResp (stripFirst chunks) with
      | some m => .ok (chunks.findSome? scanTailscaleIp, (m.peers.getD []).filterMap peerInfo,
          (chunks.findSome? scanTailscaleIp).bind (allowedSrcs m.packetFilter))
      | none => .err .json := by
  have hexpects : Expects sid ⟨frames, [], 0, false, false, none⟩ chunks := Or.inr ⟨rfl, h⟩
  have hrest : H2Body.rest ⟨frames, [], 0, false, false, none⟩ chunks = stripFirst chunks := rfl
  have hlen : (stripFirst chunks).length < totalBytes frames + 1 := by
    refine lt_of_le_of_lt ?_ (Nat.lt_succ_of_le (length_response_le h))
    rcases stripFirst_cases chunks with ⟨heq, -⟩ | ⟨heq, -⟩
    · rw [heq, stripWirePrefix]
      split
      · rw [List.length_drop]
        exact Nat.sub_le _ _
      · exact le_rfl
    · rw [heq]
  obtain ⟨reader, hread, hip⟩ := @readToEnd_spec sid sizes hsizes _ 0 _ _ hexpects hlen
  rw [fetchPeers, hread, hrest]
  dsimp only
  rw [hip]
  rfl

/-- The buffered map of a body that is read. -/
theorem bufferedMap_eq {serde : Serde} (hserde : serde.Correct) {body : List UInt8}
    (hobject : IsObject body) {m : MapStreamResp} (hm : serde.streamResp body = some m) :
    bufferedMap serde body = some (scanTailscaleIp body, (m.peers.getD []).filterMap peerInfo,
      (scanTailscaleIp body).bind (allowedSrcs m.packetFilter)) := by
  obtain ⟨hpeers, hfilter⟩ := (hserde.fields body m hobject).mp hm
  have hallowed : parseAllowedSrcs serde body = allowedSrcs m.packetFilter := by
    funext our
    rw [parseAllowedSrcs, hfilter]
    rfl
  rw [bufferedMap, parsePeers, hpeers, hallowed]
  rfl

/-- **Streaming against buffering**: for every response that carries a MapResponse,
`fetch_peers` gives the map of the buffered body if its frames are as `Framed` says; and if
it gives that map, they are, or an address opens again in a later frame. -/
theorem fetchPeers_eq_of_framed {serde : Serde} (hserde : serde.Correct) {sizes : ℕ → ℕ}
    (hsizes : ∀ k, 0 < sizes k) {sid : UInt32} {frames : List Frame} {body : List UInt8}
    (hbody : readResponse sid frames = .ok body) (hobject : IsObject body) {m : MapStreamResp}
    (hm : serde.streamResp body = some m) :
    (Framed sid frames → ∃ map, bufferedMap serde body = some map ∧
      fetchPeers serde sizes sid frames = .ok map) ∧
    ((∃ map, bufferedMap serde body = some map ∧
      fetchPeers serde sizes sid frames = .ok map) →
      Framed sid frames ∨ FramedAgain sid frames) := by
  obtain ⟨raw, hraw, hstrip⟩ := Outcome.bind_eq_ok.mp hbody
  obtain rfl := Outcome.ok.inj hstrip
  rw [readBody_eq] at hraw
  obtain ⟨chunks, hchunks, hflatten⟩ := Outcome.bind_eq_ok.mp hraw
  obtain rfl := Outcome.ok.inj hflatten
  rw [List.nil_append] at hm hobject ⊢
  rw [bufferedMap_eq hserde hobject hm, fetchPeers_eq serde hsizes hchunks,
    scanTailscaleIp_stripWirePrefix]
  rcases streamResp_stripFirst hserde hm with ⟨hlength, hread⟩ | ⟨hlength, hread⟩
  · rw [hread]
    constructor
    · rintro ⟨chunks', hchunks', -, haddress⟩
      obtain rfl := Outcome.ok.inj (hchunks.symm.trans hchunks')
      rw [findSome_scan_of_framed haddress]
      exact ⟨_, rfl, rfl⟩
    · rintro ⟨map, hmap, hfetch⟩
      rw [← Option.some_inj.mp hmap] at hfetch
      have hip := (Prod.mk.inj (Outcome.ok.inj hfetch)).1
      exact (framed_or_shownAgain hip).imp (fun haddress => ⟨chunks, hchunks, hlength, haddress⟩)
        fun hagain => ⟨chunks, hchunks, hlength, hagain⟩
  · rw [hread]
    constructor
    · rintro ⟨chunks', hchunks', hlength', -⟩
      obtain rfl := Outcome.ok.inj (hchunks.symm.trans hchunks')
      exact absurd hlength' hlength
    · rintro ⟨map, -, hfetch⟩
      cases hfetch

/-! ## An address that is cut -/

/-- A deserialiser of one text. -/
def textSerde (text : List UInt8) (m : MapStreamResp) : Serde where
  streamResp bytes := if bytes.dropWhile isBlank = text then some m else none
  mapResp bytes := if bytes.dropWhile isBlank = text then some m.peers else none
  filterResp bytes := if bytes.dropWhile isBlank = text then some m.packetFilter else none

theorem textSerde_correct (text : List UInt8) (m : MapStreamResp) :
    (textSerde text m).Correct where
  fields := by
    intro bytes m' _
    unfold textSerde
    dsimp only
    split
    · simp only [Option.some_inj]
      constructor
      · rintro rfl
        exact ⟨rfl, rfl⟩
      · rintro ⟨hpeers, hfilter⟩
        cases m
        cases m'
        simp only [MapStreamResp.mk.injEq]
        exact ⟨hpeers, hfilter⟩
    · simp
  blank := by
    intro pre bytes hpre
    unfold textSerde
    dsimp only
    rw [List.dropWhile_append_of_pos hpre]
  front := by
    intro pre bytes m' hm hbrace hpre
    unfold textSerde at hm ⊢
    dsimp only at hm ⊢
    -- nothing is skipped in front of the brace, so the text got longer
    have hskip : bytes.dropWhile isBlank = bytes := by
      cases bytes with
      | nil => rfl
      | cons b bytes =>
        obtain rfl := Option.some_inj.mp hbrace
        exact List.dropWhile_cons_of_neg (by decide)
    rw [hskip] at hm
    split at hm
    · next htext =>
      obtain ⟨b, hb, hnot⟩ := hpre
      have hrest : pre.dropWhile isBlank ≠ [] := by
        intro hnil
        exact hnot (List.dropWhile_eq_nil_iff.mp hnil b hb)
      rw [if_neg]
      intro heq
      rw [List.dropWhile_append, if_neg (by simpa using hrest), htext] at heq
      exact hrest (List.append_left_eq_self.mp heq)
    · cases hm

theorem textSerde_streamResp {text : List UInt8} (h : text.dropWhile isBlank = text)
    (m : MapStreamResp) : (textSerde text m).streamResp text = some m :=
  if_pos h

/-- A response: its header, its payloads, and the end of the stream. -/
def framesOf (sid : UInt32) (chunks : List (List UInt8)) : List Frame :=
  ⟨ftHeaders, 4, sid, []⟩ :: chunks.map (fun c => ⟨ftData, 0, sid, c⟩) ++
    [⟨ftData, flEndStream, sid, []⟩]

/-- A map with our address and one rule for it. -/
def ownMapText : List UInt8 :=
  utf8 ("\x7b\"Node\":\x7b\"Addresses\":[\"100.64.0.12/32\"]\x7d,\"PacketFilter\":[" ++
    "\x7b\"SrcIPs\":[\"10.0.0.0/8\"],\"DstPorts\":[\x7b\"IP\":\"100.64.0.12\"\x7d]\x7d]\x7d")

def ownMap : MapStreamResp where
  peers := none
  packetFilter := some [⟨some ["10.0.0.0/8"], some [⟨some "100.64.0.12"⟩]⟩]

/-- Two frames, cut behind the address. -/
def ownMapFrames : List Frame := framesOf 1 [ownMapText.take 60, ownMapText.drop 60]

theorem framed_ownMap : Framed 1 ownMapFrames := by
  have hopen : Search.position addressStart
      [ownMapText.take 60, ownMapText.drop 60].flatten = some 22 := by decide +kernel
  have htext : (addressText [ownMapText.take 60, ownMapText.drop 60].flatten 22).length = 11 := by
    decide +kernel
  have hscan : (scanTailscaleIp
      [ownMapText.take 60, ownMapText.drop 60].flatten).isSome = true := by decide +kernel
  have hwire : hasWirePrefix [ownMapText.take 60, ownMapText.drop 60].flatten = false := by
    decide +kernel
  have hlen : (ownMapText.take 60).length = 60 := by decide +kernel
  refine ⟨[ownMapText.take 60, ownMapText.drop 60], by decide +kernel, fun h => ?_, ?_⟩
  · exact absurd h (hwire ▸ Bool.false_ne_true)
  · intro before c after pos hopens
    obtain rfl := Option.some_inj.mp (hopens.found.symm.trans hopen)
    rw [if_pos hscan, htext]
    have hsplit := hopens.split
    cases before with
    | nil =>
      rw [← (List.cons.inj hsplit).1, hlen]
      decide
    | cons b before =>
      -- the second frame starts behind the address
      have hstart := hopens.start
      rw [List.flatten_cons, List.length_append, ← (List.cons.inj hsplit).1, hlen] at hstart
      omega

/-- The map that comes in these frames is the buffered one. -/
theorem fetchPeers_eq_ownMap :
    ∃ map, bufferedMap (textSerde ownMapText ownMap) ownMapText = some map ∧
      fetchPeers (textSerde ownMapText ownMap) (fun _ => 1) 1 ownMapFrames = .ok map := by
  have hbody : readResponse 1 ownMapFrames = .ok ownMapText := by decide +kernel
  have htext : ownMapText.dropWhile isBlank = ownMapText := by decide +kernel
  exact (fetchPeers_eq_of_framed (textSerde_correct _ _) (fun _ => Nat.zero_lt_one) hbody
    (by decide +kernel) (textSerde_streamResp htext ownMap)).1 framed_ownMap

/-- **A frame that ends inside the last number of our address**: the streamed map has
another address, and the rule for the real one does not apply to it. -/
theorem fetchPeers_ne_bufferedMap :
    bufferedMap (textSerde ownMapText ownMap) ownMapText =
        some (some "100.64.0.12", [], some [(0x0a000000, 0xff000000)]) ∧
      fetchPeers (textSerde ownMapText ownMap) (fun _ => 1) 1
        (framesOf 1 [ownMapText.take 33, ownMapText.drop 33]) =
          .ok (some "100.64.0.1", [], some []) := by
  decide +kernel

end NetMap
