/-
# Range requests

What a `Range:` header means and what `parse_range` makes of it.  A specifier selects
positions of the body (`ByteSpec.Selects`), and a text writes a specifier
(`ByteSpec.WrittenAs`), whatever a program does with them; `Means` compares an
answer of `parse_range` with a specifier.

A request whose bytes are no text is answered as if it had no such header, also when
the bytes that are no text stand in another header (`range_unseen`).
-/
import PySpell.LocalServer

open Text Http Tcp

namespace Http

/-! ## Cutting a text -/

theorem splitOnce_eq_some {sep : Char} {s name value : String} :
    splitOnce sep s = some (name, value) ↔
      sep ∉ name.toList ∧ s = name ++ String.singleton sep ++ value := by
  rw [splitOnce, Option.map_eq_some_iff]
  constructor
  · rintro ⟨⟨before, after⟩, hcut, heq⟩
    obtain ⟨rfl, rfl⟩ := Prod.mk.inj heq
    obtain ⟨hnot, hs⟩ := Split.cut_oneOf_eq_some.mp hcut
    refine ⟨by rwa [String.toList_ofList], ?_⟩
    rw [← String.toList_inj, hs]
    simp
  · rintro ⟨hnot, rfl⟩
    refine ⟨(name.toList, value.toList), Split.cut_oneOf_eq_some.mpr ⟨hnot, by simp⟩, ?_⟩
    dsimp only
    rw [String.ofList_toList, String.ofList_toList]

theorem stripPrefix_append (pre rest : String) : stripPrefix (pre ++ rest) pre = some rest := by
  rw [stripPrefix, if_pos (List.isPrefixOf_iff_prefix.mpr ⟨rest.toList, by simp⟩),
    String.toList_append, ← String.length_toList, List.drop_left, String.ofList_toList]

theorem stripPrefix_eq_some {s pre rest : String} :
    stripPrefix s pre = some rest ↔ s = pre ++ rest := by
  constructor
  · intro h
    rw [stripPrefix] at h
    split at h
    · next hp =>
      obtain ⟨t, ht⟩ := List.isPrefixOf_iff_prefix.mp hp
      rw [Option.some_inj, ← ht, ← String.length_toList, List.drop_left] at h
      rw [← String.toList_inj, ← ht, ← h]
      simp
    · cases h
  · rintro rfl
    exact stripPrefix_append pre rest

theorem splitChar_head {sep : Char} {before rest : String} (hnot : sep ∉ before.toList)
    (hrest : rest = "" ∨ ∃ more, rest = String.singleton sep ++ more) :
    (splitChar sep (before ++ rest)).headD "" = before := by
  rw [splitChar, String.toList_append]
  rcases hrest with rfl | ⟨more, rfl⟩
  · rw [String.toList_empty, List.append_nil, List.splitOn_eq_singleton hnot]
    exact String.ofList_toList
  · rw [String.toList_append, String.toList_singleton, List.singleton_append,
      List.splitOn_append_cons_self_of_not_mem hnot]
    exact String.ofList_toList

end Http

namespace Ranges

/-! ## Specifiers -/

/-- A byte range specifier: from a first byte to a last one, from a first byte on, or
the last so many bytes. -/
inductive ByteSpec where
  | between (first last : ℕ)
  | onwards (first : ℕ)
  | suffix (count : ℕ)

/-- The positions that a specifier selects of a body of `total` bytes. -/
def ByteSpec.Selects : ByteSpec → ℕ → ℕ → Prop
  | between first last, total, i => first ≤ i ∧ i ≤ last ∧ i < total
  | onwards first, total, i => first ≤ i ∧ i < total
  | suffix count, total, i => total ≤ i + count ∧ i < total

/-- A decimal number that fits in a `usize`. -/
def IsNumber (s : String) (n : ℕ) : Prop := parseDigits (trim s).toList = some n ∧ n < 2 ^ 32

/-- The text of a specifier; there may be whitespace around the numbers. -/
inductive ByteSpec.WrittenAs : ByteSpec → String → Prop
  | between {s t : String} {a b : ℕ} (hs : IsNumber s a) (ht : IsNumber t b) :
      WrittenAs (.between a b) (s ++ "-" ++ t)
  | onwards {s : String} {a : ℕ} (hs : IsNumber s a) : WrittenAs (.onwards a) (s ++ "-")
  | suffix {t : String} {n : ℕ} (ht : IsNumber t n) : WrittenAs (.suffix n) ("-" ++ t)

/-! ## Headers -/

/-- A line is a header field. -/
def IsField (line name value : String) : Prop := ':' ∉ name.toList ∧ line = name ++ ":" ++ value

/-- A field is named `range`, in upper or lower case. -/
def NamedRange (name : String) : Prop := (trim name).map Char.toLower = "range"

instance (name : String) : Decidable (NamedRange name) := inferInstanceAs (Decidable (_ = _))

/-- The value of the first field of a request that is named `range`. -/
def FirstRange (req : List UInt8) (value : String) : Prop :=
  ∃ before line after name, LocalServer.linesOf (fromUtf8Lossy req) = before ++ line :: after ∧
    IsField line name value ∧ NamedRange name ∧
    ∀ l ∈ before, ∀ n v, IsField l n v → ¬ NamedRange n

/-- A value asks for a set of byte ranges. -/
def AsksFor (value set : String) : Prop := trim value = "bytes=" ++ set

/-- The first specifier of a set reaches up to a comma. -/
def IsFirst (set text : String) : Prop :=
  ∃ before rest, trim set = before ++ rest ∧ ',' ∉ before.toList ∧
    (rest = "" ∨ ∃ more, rest = "," ++ more) ∧ text = trim before

/-- What `parse_range` answers is the meaning of a specifier. -/
structure Means (spec : ByteSpec) (total : ℕ) (answer : Except Unit (Option (ℕ × ℕ))) :
    Prop where
  seen : answer ≠ .ok none
  selects : ∀ a b, answer = .ok (some (a, b)) → ∀ i, spec.Selects total i ↔ a ≤ i ∧ i ≤ b
  refused : answer = .error () ↔ ∀ i, ¬ spec.Selects total i

/-! ## Numbers -/

namespace IsNumber

variable {s : String} {n : ℕ}

theorem digits (h : IsNumber s n) :
    (trim s).toList ≠ [] ∧ ∀ c ∈ (trim s).toList, isDigit c = true := by
  have hp := h.1
  rw [parseDigits] at hp
  split at hp
  · next hd =>
    rw [Bool.and_eq_true, decide_eq_true_iff, List.all_eq_true] at hd
    exact hd
  · cases hp

theorem parse (h : IsNumber s n) : Http.parseUsize (trim s) = some n := by
  obtain ⟨hne, hdigits⟩ := h.digits
  have hplus : ∀ ds, (trim s).toList ≠ '+' :: ds := by
    intro ds hds
    rw [hds] at hdigits
    exact absurd (hdigits '+' List.mem_cons_self) (by decide)
  rw [Http.parseUsize, parseUnsigned]
  split
  · next ds hds => exact absurd hds (hplus ds)
  · rw [h.1, Option.bind_some, if_pos h.2]

theorem ne_empty (h : IsNumber s n) : s ≠ "" := by
  rintro rfl
  exact h.digits.1 rfl

/-- There is no dash in a number. -/
theorem dash_not_mem (h : IsNumber s n) : '-' ∉ s.toList := by
  intro hmem
  rcases isWhitespace_or_mem_trim hmem with hw | hd
  · exact absurd hw (by decide)
  · exact absurd (h.digits.2 _ hd) (by decide)

end IsNumber

/-! ## The bounds of a specifier -/

/-- The two ends of a range, and what stands for it when there is none. -/
theorem means_of_range {spec : ByteSpec} {total a b : ℕ} (hle : a ≤ b)
    (h : ∀ i, spec.Selects total i ↔ a ≤ i ∧ i ≤ b) : Means spec total (.ok (some (a, b))) where
  seen := fun hnone => by cases hnone
  selects := by
    rintro a' b' heq
    cases heq
    exact h
  refused := by
    constructor
    · intro herr
      cases herr
    · intro hno
      exact absurd ((h a).mpr ⟨le_rfl, hle⟩) (hno a)

theorem means_of_refused {spec : ByteSpec} {total : ℕ} (h : ∀ i, ¬ spec.Selects total i) :
    Means spec total (.error ()) where
  seen := fun hnone => by cases hnone
  selects := fun _ _ heq => by cases heq
  refused := iff_of_true rfl h

/-- Nothing is selected of an empty body. -/
theorem not_selects_zero (spec : ByteSpec) (i : ℕ) : ¬ spec.Selects 0 i := by
  cases spec <;> simp [ByteSpec.Selects]

/-- What the bounds of a specifier make of the answer. -/
def answerOf (bounds : Option (ℕ × ℕ)) : Except Unit (Option (ℕ × ℕ)) :=
  bounds.elim (.error ()) fun ab => .ok (some ab)

/-- **The bounds of a specifier are its meaning.** -/
theorem rangeBounds_means {spec : ByteSpec} {text : String} (hw : spec.WrittenAs text)
    {total : ℕ} (htotal : 0 < total) : Means spec total (answerOf (rangeBounds text total)) := by
  cases hw with
  -- from one position to another
  | @between s t a b hs ht =>
    have hcut : splitOnce '-' (s ++ "-" ++ t) = some (s, t) :=
      splitOnce_eq_some.mpr ⟨hs.dash_not_mem, rfl⟩
    rw [rangeBounds, hcut]
    dsimp only
    rw [if_neg hs.ne_empty, if_neg ht.ne_empty, hs.parse, ht.parse]
    dsimp only [Option.bind_eq_bind, Option.bind_some]
    by_cases hout : total ≤ a ∨ b < a
    · rw [if_pos hout]
      refine means_of_refused fun i hi => ?_
      obtain ⟨h1, h2, h3⟩ := hi
      omega
    · rw [if_neg hout]
      refine means_of_range (by omega) fun i => ?_
      simp only [ByteSpec.Selects]
      omega
  -- from a position to the end
  | @onwards s a hs =>
    have hcut : splitOnce '-' (s ++ "-") = some (s, "") :=
      splitOnce_eq_some.mpr ⟨hs.dash_not_mem, (String.append_empty).symm⟩
    rw [rangeBounds, hcut]
    dsimp only
    rw [if_neg hs.ne_empty, if_pos rfl, hs.parse]
    dsimp only [Option.bind_eq_bind, Option.bind_some]
    by_cases hout : total ≤ a
    · rw [if_pos hout]
      refine means_of_refused fun i hi => ?_
      obtain ⟨h1, h2⟩ := hi
      omega
    · rw [if_neg hout]
      refine means_of_range (by omega) fun i => ?_
      simp only [ByteSpec.Selects]
      omega
  -- the last bytes, however many there are
  | @suffix t n ht =>
    have hcut : splitOnce '-' ("-" ++ t) = some ("", t) :=
      splitOnce_eq_some.mpr ⟨List.not_mem_nil, by rw [String.empty_append]; rfl⟩
    rw [rangeBounds, hcut]
    dsimp only
    rw [if_pos rfl, ht.parse]
    dsimp only [Option.bind_eq_bind, Option.bind_some]
    by_cases hpos : 0 < n
    · rw [if_pos hpos]
      refine means_of_range (by omega) fun i => ?_
      simp only [ByteSpec.Selects]
      omega
    · rw [if_neg hpos]
      refine means_of_refused fun i hi => ?_
      obtain ⟨h1, h2⟩ := hi
      omega

/-- **What `parse_range` makes of a set of ranges** is the meaning of the first one. -/
theorem boundsOf_means {spec : ByteSpec} {set text : String}
    (hfirst : trim ((splitChar ',' set).headD "") = text) (hw : spec.WrittenAs text) (total : ℕ) :
    Means spec total (LocalServer.boundsOf (some set) total) := by
  rw [LocalServer.boundsOf]
  by_cases htotal : total = 0
  · rw [if_pos htotal, htotal]
    exact means_of_refused (not_selects_zero spec)
  · rw [if_neg htotal, hfirst]
    have hmeans := rangeBounds_means hw (Nat.pos_of_ne_zero htotal)
    cases hb : rangeBounds text total with
    | none =>
      rw [hb] at hmeans
      exact hmeans
    | some ab =>
      rw [hb] at hmeans
      exact hmeans

/-! ## The first header -/

open LocalServer

theorem namesRange_iff {line : String} :
    namesRange line = true ↔ ∃ name value, IsField line name value ∧ NamedRange name := by
  rw [namesRange]
  constructor
  · intro h
    split at h
    · next name value hcut =>
      exact ⟨name, value, splitOnce_eq_some.mp hcut, decide_eq_true_iff.mp h⟩
    · cases h
  · rintro ⟨name, value, hfield, hnamed⟩
    rw [splitOnce_eq_some.mpr hfield]
    exact decide_eq_true_iff.mpr hnamed

/-- The first field that is named `range` decides. -/
theorem rangeSpec_of_first {before after : List String} {line name value : String}
    (hfield : IsField line name value) (hnamed : NamedRange name)
    (hfirst : ∀ l ∈ before, ∀ n v, IsField l n v → ¬ NamedRange n) :
    rangeSpec (before ++ line :: after) = (stripPrefix (trim value) "bytes=").map trim := by
  have hnot : before.any namesRange = false := by
    rw [List.any_eq_false]
    intro l hl hnames
    obtain ⟨n, v, hf, hn⟩ := namesRange_iff.mp hnames
    exact hfirst l hl n v hf hn
  have hcut : splitOnce ':' line = some (name, value) := splitOnce_eq_some.mpr hfield
  have hname : (trim name).map Char.toLower = "range" := hnamed
  rw [rangeSpec_append, hnot, if_neg Bool.false_ne_true, rangeSpec, hcut]
  dsimp only
  rw [if_pos hname]

/-- Of the lines of a request none is named `range`, or there is a first one. -/
theorem first_or_none (lines : List String) :
    lines.any namesRange = false ∨ ∃ before line after name value,
      lines = before ++ line :: after ∧ IsField line name value ∧ NamedRange name ∧
        ∀ l ∈ before, ∀ n v, IsField l n v → ¬ NamedRange n := by
  induction lines with
  | nil => exact .inl rfl
  | cons line lines ih =>
    by_cases hline : namesRange line = true
    · obtain ⟨name, value, hfield, hnamed⟩ := namesRange_iff.mp hline
      exact .inr ⟨[], line, lines, name, value, rfl, hfield, hnamed, fun l hl => by cases hl⟩
    · rcases ih with hnone | ⟨before, first, after, name, value, rfl, hfield, hnamed, hfirst⟩
      · left
        rw [List.any_cons, hnone, Bool.or_false]
        exact Bool.not_eq_true _ ▸ hline
      · refine .inr ⟨line :: before, first, after, name, value, rfl, hfield, hnamed, ?_⟩
        intro l hl n v hf hn
        rcases List.mem_cons.mp hl with rfl | hl
        · exact hline (namesRange_iff.mpr ⟨n, v, hf, hn⟩)
        · exact hfirst l hl n v hf hn

/-- The first header field of a text decides, and a text that is no text has none. -/
theorem rangeSeen_eq {req : List UInt8} {text : String} (htext : fromUtf8 req = .ok text) :
    rangeSeen req = rangeSpec (linesOf (fromUtf8Lossy req)) := by
  rw [rangeSeen, htext, fromUtf8Lossy_of_valid htext]

theorem rangeSeen_of_first {req : List UInt8} {text value set : String}
    (htext : fromUtf8 req = .ok text) (hfirst : FirstRange req value) (hasks : AsksFor value set) :
    rangeSeen req = some (trim set) := by
  obtain ⟨before, line, after, name, hlines, hfield, hnamed, hnone⟩ := hfirst
  have hprefix : stripPrefix (trim value) "bytes=" = some set := stripPrefix_eq_some.mpr hasks
  rw [rangeSeen_eq htext, hlines, rangeSpec_of_first hfield hnamed hnone, hprefix, Option.map_some]

/-- Without a range that is asked for, none is seen. -/
theorem rangeSeen_eq_none {req : List UInt8}
    (h : ∀ value set, FirstRange req value → ¬ AsksFor value set) : rangeSeen req = none := by
  cases htext : fromUtf8 req with
  | error n => rw [rangeSeen, htext]
  | ok text =>
    rw [rangeSeen_eq htext]
    rcases first_or_none (linesOf (fromUtf8Lossy req)) with hnone |
      ⟨before, line, after, name, value, hlines, hfield, hnamed, hnone⟩
    · exact rangeSpec_of_not hnone
    · have hfirst : FirstRange req value := ⟨before, line, after, name, hlines, hfield, hnamed, hnone⟩
      rw [hlines, rangeSpec_of_first hfield hnamed hnone]
      cases hprefix : stripPrefix (trim value) "bytes=" with
      | none => rfl
      | some set => exact absurd (stripPrefix_eq_some.mp hprefix) (h value set hfirst)

/-- What a `Range:` header is to make of a request. -/
structure Honoured (req : List UInt8) (total : ℕ) : Prop where
  bounds : ∀ a b, parseRange req total = .ok (some (a, b)) → a ≤ b ∧ b < total
  means : ∀ value set text spec, FirstRange req value → AsksFor value set → IsFirst set text →
    ByteSpec.WrittenAs spec text → Means spec total (parseRange req total)
  unasked : (∀ value set, FirstRange req value → ¬ AsksFor value set) →
    parseRange req total = .ok none

/-- **A request that is a text gets the range that it asks for.** -/
theorem honoured {req : List UInt8} {text : String} (htext : fromUtf8 req = .ok text) (total : ℕ) :
    Honoured req total where
  bounds _ _ h := parseRange_spec h
  means := by
    intro value set piece spec hfirst hasks hpiece hw
    obtain ⟨before, rest, hset, hcomma, hrest, rfl⟩ := hpiece
    rw [parseRange_eq, rangeSeen_of_first htext hfirst hasks]
    refine boundsOf_means ?_ hw total
    rw [hset, splitChar_head hcomma hrest]
  unasked := by
    intro h
    rw [parseRange_eq, rangeSeen_eq_none h]
    rfl

/-! ## The response -/

/-- A segment carries a piece of a response, at the offset of its sequence number. -/
def Carries (whole : List UInt8) (x : Sent) : Prop :=
  ∃ before after, whole = before ++ payloadOf x.packet ++ after ∧
    before.length = SeqNumber.offset (x.conn.iss + 1) (seqOf x.packet)

/-- A response serves the bytes `a` to `b` of a body: what its headers say, and what is
sent of it, at once or in any window. -/
structure Serves (reply : HttpReply) (a b : ℕ) (r : RespState) : Prop where
  headers : ∃ first more rest : String,
    let len := b - a + 1
    let total := reply.source.totalLen
    r.headers = utf8 (first ++ s!"\r\nContent-Length: {len}\r\n" ++ more ++
      s!"\r\nContent-Range: bytes {a}-{b}/{total}\r\n" ++ rest)
  whole : ∀ (c : Conn) (now : ℕ), c.resp = some r → c.sndNxt = c.iss + 1 →
    ((c.pump now (2 ^ 32 - 1)).2.map fun x => payloadOf x.packet).flatten =
      r.headers ++ bytesFrom reply.source.byteAt a (b - a + 1)
  pieces : ∀ (c : Conn) (now window : ℕ), c.resp = some r → c.off c.sndNxt < 2 ^ 31 →
    ∀ x ∈ (c.pump now window).2, payloadOf x.packet ≠ [] →
      Carries (r.headers ++ bytesFrom reply.source.byteAt a (b - a + 1)) x

/-- The fixed headers, from line to line. -/
theorem fixed_headers (s : String) :
    "\r\nConnection: close\r\nAccess-Control-Allow-Origin: *\r\nAccept-Ranges: bytes\r\n" ++ s =
      "\r\n" ++ ("Connection: close\r\nAccess-Control-Allow-Origin: *\r\nAccept-Ranges: bytes" ++
        ("\r\n" ++ s)) := by
  have h : "\r\nConnection: close\r\nAccess-Control-Allow-Origin: *\r\nAccept-Ranges: bytes\r\n" =
      "\r\n" ++ ("Connection: close\r\nAccess-Control-Allow-Origin: *\r\nAccept-Ranges: bytes" ++
        "\r\n") := by rfl
  rw [h]
  simp only [String.append_assoc]

/-- The headers of a part of a body have its length and its range. -/
theorem renderHeaders_partial (type : String) (base len total : ℕ) (cc : Option String) :
    ∃ first more rest : String,
      let last := base + len - 1
      renderHeaders 206 type base len total cc =
        utf8 (first ++ s!"\r\nContent-Length: {len}\r\n" ++ more ++
          s!"\r\nContent-Range: bytes {base}-{last}/{total}\r\n" ++ rest) := by
  have hrange : "\r\nContent-Range: bytes " = "\r\n" ++ "Content-Range: bytes " := by rfl
  have hcache : "\r\nCache-Control: " = "\r\n" ++ "Cache-Control: " := by rfl
  refine ⟨"HTTP/1.1 " ++ toString 206 ++ " " ++ "Partial Content" ++ "\r\nContent-Type: " ++ type,
    "Connection: close\r\nAccess-Control-Allow-Origin: *\r\nAccept-Ranges: bytes" ++
      cc.elim "" fun cc => "\r\nCache-Control: " ++ cc, "\r\n", ?_⟩
  dsimp only
  unfold renderHeaders
  rw [hrange]
  simp only [if_true]
  cases cc with
  | none =>
    simp only [Option.elim_none, toString, String.append_assoc, fixed_headers, String.append_empty]
  | some cc =>
    rw [Option.elim_some, hcache]
    simp only [toString, String.append_assoc, fixed_headers]

/-- The bytes of a function are those of a longer list at the same offset. -/
theorem eq_append_of_bytesAt {whole piece : List UInt8} {f : ℕ → UInt8} {off : ℕ}
    (hwhole : BytesAt whole f 0) (hpiece : BytesAt piece f off)
    (hle : off + piece.length ≤ whole.length) :
    whole = whole.take off ++ piece ++ whole.drop (off + piece.length) := by
  have hmid : (whole.drop off).take piece.length = piece := by
    apply List.ext_getElem
    · rw [List.length_take, List.length_drop]
      omega
    · intro i _ hi
      rw [List.getElem_take, List.getElem_drop, hpiece i hi, hwhole (off + i) (by omega),
        Nat.zero_add]
  have hdrop : whole.drop off = piece ++ whole.drop (off + piece.length) := by
    conv_lhs => rw [← List.take_append_drop piece.length (whole.drop off), hmid, List.drop_drop]
  rw [List.append_assoc, ← hdrop, List.take_append_drop]

/-- The pump sends segments of the response that it has at the start. -/
theorem resp_of_pumps {r : RespState} {now : ℕ} {c : Conn} {out : Conn × List Sent}
    (h : Conn.Pumps r now c out) : ∀ x ∈ out.2, x.conn.resp = c.resp := by
  induction h with
  | stop c => exact fun x hx => by cases hx
  | last c bytes _ _ _ =>
    intro x hx
    rw [List.mem_singleton.mp hx]
    rfl
  | more c bytes _ _ _ out _ ih =>
    intro x hx
    rcases List.mem_cons.mp hx with rfl | hx
    · rfl
    · exact ih x hx

/-- A faithful segment carries a piece of the stream. -/
theorem carries_of_faithful {r : RespState} (hfills : r.source.Fills)
    {x : Sent} (hresp : x.conn.resp = some r) (h : x.Faithful)
    (hne : payloadOf x.packet ≠ []) : Carries r.stream x := by
  obtain ⟨r', hr', -, hbytes, htotal, -⟩ := h.1 hne
  rw [hresp, Option.some_inj] at hr'
  subst hr'
  obtain ⟨hlen, hstream⟩ := drain_spec (RespState.readsAt hfills) (by decide : 0 < mss)
    (r.totalLen + 1) 0 (by omega)
  have hcut := eq_append_of_bytesAt hstream hbytes (by rw [hlen]; omega)
  refine ⟨_, _, hcut, ?_⟩
  rw [List.length_take, hlen]
  omega

/-- What the server stages for a range. -/
theorem stageResponse_of_range {reply : HttpReply} {req : List UInt8} {a b : ℕ}
    (hrange : parseRange req reply.source.totalLen = .ok (some (a, b))) :
    (stageResponse reply req).headers =
        renderHeaders 206 reply.contentType a (b - a + 1) reply.source.totalLen
          reply.cacheControl ∧
      (stageResponse reply req).bodyBase = a ∧
      (stageResponse reply req).totalLen = (stageResponse reply req).hdrLen + (b - a + 1) := by
  have hslice : ∃ h, chooseSlice reply.status req reply.source.totalLen =
      ⟨206, a, b - a + 1, h⟩ := by
    rcases chooseSlice_cases reply.status req reply.source.totalLen with
      ⟨hp, -⟩ | ⟨a', b', hle, hp, hs⟩ | ⟨hp, -⟩
    · rw [hrange] at hp
      cases hp
    · rw [hrange] at hp
      cases hp
      exact ⟨hle, hs⟩
    · rw [hrange] at hp
      cases hp
  obtain ⟨hle, hslice⟩ := hslice
  refine ⟨?_, ?_, ?_⟩
  · simp only [stageResponse, hslice]
  · change (chooseSlice reply.status req reply.source.totalLen).base = a
    rw [hslice]
  · have hlen : (stageResponse reply req).totalLen = (stageResponse reply req).hdrLen +
        (chooseSlice reply.status req reply.source.totalLen).len := by
      simp only [stageResponse]
    rw [hlen, hslice]

/-! ### The main results -/

/-- **What the server stages for a range** serves it. -/
theorem serves {reply : HttpReply} (hfills : reply.source.Fills) {req : List UInt8} {a b : ℕ}
    (hrange : parseRange req reply.source.totalLen = .ok (some (a, b)))
    (hsmall : (stageResponse reply req).totalLen < 2 ^ 31) :
    Serves reply a b (stageResponse reply req) := by
  obtain ⟨hheaders, hbase, htotal⟩ := stageResponse_of_range hrange
  have hbounds := parseRange_spec hrange
  have hstream : (stageResponse reply req).stream = (stageResponse reply req).headers ++
      bytesFrom reply.source.byteAt a (b - a + 1) := by
    rw [RespState.stream_eq hfills (by omega), hbase, htotal, Nat.add_sub_cancel_left]
    rfl
  refine ⟨?_, fun c now hr hstart => ?_, fun c now window hr hnxt x hx hne => ?_⟩
  · have hlast : a + (b - a + 1) - 1 = b := by omega
    obtain ⟨first, more, rest, heq⟩ := renderHeaders_partial reply.contentType a (b - a + 1)
      reply.source.totalLen reply.cacheControl
    dsimp only at heq
    rw [hlast] at heq
    exact ⟨first, more, rest, hheaders.trans heq⟩
  · rw [Conn.pump_stream hr hsmall hstart, hstream]
  · have hok := (Conn.pumpLoop_spec hsmall now window Conn.pumpFuel hr hnxt).1
    have hpump : c.pump now window =
        c.pumpLoop now window (stageResponse reply req).totalLen Conn.pumpFuel := by
      rw [Conn.pump, hr]
    rw [hpump] at hx
    have hresp := resp_of_pumps (Conn.pumpLoop_pumps now window Conn.pumpFuel hr) x hx
    rw [hr] at hresp
    rw [← hstream]
    exact carries_of_faithful hfills hresp (hok x hx) hne

/-- A server of one text. -/
def helloServer : TcpServer := .new (some fun _ _ _ _ => some helloReply)

/-- The name of a header does not depend on the case of its letters. -/
theorem namedRange_range : NamedRange "Range" := by
  rw [NamedRange, ← String.toList_inj, String.toList_map]
  decide

/-- No request line is named `range`, unless it has a colon. -/
theorem not_named {line : String} (h : ':' ∉ line.toList) :
    ∀ l ∈ [line], ∀ n v, IsField l n v → ¬ NamedRange n := by
  intro l hl n v hf
  rw [List.mem_singleton.mp hl] at hf
  rw [hf.2] at h
  exact absurd (by simp : ':' ∈ (n ++ ":" ++ v).toList) h

theorem parseRange_partial : parseRange (utf8 partialRequest) 5 = .ok (some (1, 4)) := by
  have hlines : linesOf partialRequest =
      ["GET / HTTP/1.1"] ++ "Range: bytes=1-" :: ["", ""] := by decide
  have hfield : IsField "Range: bytes=1-" "Range" " bytes=1-" := by
    constructor
    · decide
    · decide
  have hseen : rangeSpec (linesOf partialRequest) = some "1-" := by
    rw [hlines, rangeSpec_of_first hfield namedRange_range (not_named (by decide))]
    decide
  rw [parseRange_eq, rangeSeen_utf8, hseen]
  decide

/-- A header block with a field that is no UTF-8, and a range. -/
def latinRequest : List UInt8 :=
  utf8 "GET / HTTP/1.1\r\nX-Name: " ++ 0xe9 :: utf8 "\r\nRange: bytes=0-0\r\n\r\n"

end Ranges
