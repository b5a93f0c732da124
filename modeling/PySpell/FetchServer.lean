/-
# The requests of the fetch firmware

`server_task` of `esp32-mpe-fetch`: a POST whose body is a program.  The loop reads until
the headers end, and takes what is there behind them for the body, without a look at
`Content-Length`.  So the program that is run is the body up to the end of the read in
which the headers ended (`readLoop_append_late`), and it is the whole body exactly if only
whitespace comes later (`source_iff`).
-/
import PySpell.Lib.Search
import PySpell.Lib.Split
import PySpell.Lib.Text

open Text

namespace FetchServer

/-! ## Reading a request -/

/-- The length of `buf`. -/
def bufLen : ℕ := 1536

/-- The end of the headers. -/
def terminator : List Char := "\r\n\r\n".toList

/-- `find`. -/
def find (hay needle : List UInt8) : Option ℕ :=
  if needle = [] ∨ hay.length < needle.length then none else Search.position needle hay

/-- The loop of `server_task`, from the bytes `buf[..n]` on.  A read gives bytes as far as
there is room; one that gives none ends the loop, as does an error. -/
def readLoop : List (List UInt8) → List UInt8 → List UInt8
  | [], buf => buf
  | r :: rs, buf =>
    let k := r.take (bufLen - buf.length)
    if k = [] then buf
    else if (find (buf ++ k) (bytes terminator)).isSome ∨ (buf ++ k).length = bufLen then buf ++ k
    else readLoop rs (buf ++ k)

/-- `src`, which is run unless it is empty. -/
def source (reads : List (List UInt8)) : String :=
  let text := match fromUtf8 (readLoop reads []) with
    | .ok text => text
    | .error _ => ""
  match Split.cut (Split.str terminator) text.toList with
  | some (_, body) => trim (String.ofList body)
  | none => ""

/-! ## Requests -/

/-- An ASCII request that fits in the buffer: headers up to the first blank line, and a
body. -/
structure Request where
  head : List Char
  body : List Char
  ascii : ∀ c ∈ head ++ body, c.toNat < 0x80
  blank : Search.position terminator (head ++ terminator) = some head.length
  fits : head.length + 4 + body.length ≤ bufLen

theorem ascii_terminator : ∀ c ∈ terminator, c.toNat < 0x80 :=
  List.forall_iff_forall_mem.mp (by decide)

namespace Request

variable (q : Request)

def text : List Char := q.head ++ (terminator ++ q.body)

/-- How many bytes the header block has. -/
def headerLen : ℕ := q.head.length + 4

theorem ascii_text : ∀ c ∈ q.text, c.toNat < 0x80 := by
  intro c hc
  rw [text, List.mem_append, List.mem_append] at hc
  rcases hc with hc | hc | hc
  · exact q.ascii c (List.mem_append_left _ hc)
  · exact ascii_terminator c hc
  · exact q.ascii c (List.mem_append_right _ hc)

theorem length_text : q.text.length = q.headerLen + q.body.length := by
  rw [text, List.length_append, List.length_append, headerLen]
  have hlen : terminator.length = 4 := rfl
  omega

/-- The blank line is the first one of the request. -/
theorem position_text : Search.position terminator q.text = some q.head.length := by
  rw [text, ← List.append_assoc]
  exact Search.position_append_left (by decide) q.blank q.body

end Request

/-! ## Characters and bytes -/

/-- The byte of an ASCII character. -/
def byteOf (c : Char) : UInt8 := UInt8.ofNat c.toNat

theorem byteOf_inj {c d : Char} (hc : c.toNat < 0x80) (hd : d.toNat < 0x80)
    (h : byteOf c = byteOf d) : c = d := by
  have hnat := congrArg UInt8.toNat h
  rw [byteOf, byteOf, UInt8.toNat_ofNat', UInt8.toNat_ofNat'] at hnat
  exact Char.toNat_inj.mp (by omega)

/-- A pattern begins the bytes of a text where it begins the text. -/
theorem map_byteOf_prefix_iff {pat cs : List Char} (hpat : ∀ c ∈ pat, c.toNat < 0x80)
    (hcs : ∀ c ∈ cs, c.toNat < 0x80) : pat.map byteOf <+: cs.map byteOf ↔ pat <+: cs := by
  constructor
  · induction pat generalizing cs with
    | nil => exact fun _ => List.nil_prefix
    | cons a pat ih =>
      intro h
      cases cs with
      | nil => exact absurd (List.prefix_nil.mp h) (by simp)
      | cons c cs =>
        rw [List.map_cons, List.map_cons, List.cons_prefix_cons] at h
        obtain rfl := byteOf_inj (hpat a (by simp)) (hcs c (by simp)) h.1
        have hrest := ih (fun c hc => hpat c (List.mem_cons_of_mem _ hc))
          (fun c hc => hcs c (List.mem_cons_of_mem _ hc)) h.2
        exact List.cons_prefix_cons.mpr ⟨rfl, hrest⟩
  · exact fun h => h.map byteOf

theorem find_map_byteOf {pat cs : List Char} (hne : pat ≠ []) (hpat : ∀ c ∈ pat, c.toNat < 0x80)
    (hcs : ∀ c ∈ cs, c.toNat < 0x80) :
    find (cs.map byteOf) (pat.map byteOf) = Search.position pat cs := by
  have hne' : pat.map byteOf ≠ [] := fun h => hne (List.map_eq_nil_iff.mp h)
  have hpre (j : ℕ) : pat.map byteOf <+: (cs.map byteOf).drop j ↔ pat <+: cs.drop j := by
    rw [← List.map_drop]
    exact map_byteOf_prefix_iff hpat fun c hc => hcs c (List.mem_of_mem_drop hc)
  have hposition : Search.position (pat.map byteOf) (cs.map byteOf) = Search.position pat cs := by
    cases h : Search.position pat cs with
    | none =>
      rw [Search.position_eq_none hne']
      exact fun j => (hpre j).not.mpr ((Search.position_eq_none hne).mp h j)
    | some k =>
      obtain ⟨hk, hfirst⟩ := (Search.position_eq_some hne).mp h
      rw [Search.position_eq_some hne']
      exact ⟨(hpre k).mpr hk, fun j hj => (hpre j).not.mpr (hfirst j hj)⟩
  unfold find
  split_ifs with hshort
  · -- a text that is too short has no match
    symm
    rw [Search.position_eq_none hne]
    intro j hj
    have hle := Search.add_length_le_of_prefix hne hj
    rcases hshort with hnil | hlt
    · exact hne' hnil
    · rw [List.length_map, List.length_map] at hlt
      omega
  · exact hposition

namespace Request

variable {q : Request}

/-- **A part of the request shows the end of the headers** exactly if it goes that far. -/
theorem find_take (n : ℕ) :
    (find ((q.text.take n).map byteOf) (bytes terminator)).isSome ↔ q.headerLen ≤ n := by
  have hpos := q.position_text
  have hlen := q.length_text
  rw [bytes_ascii ascii_terminator, show (fun c : Char => UInt8.ofNat c.toNat) = byteOf from rfl,
    find_map_byteOf (by decide) ascii_terminator
      fun c hc => q.ascii_text c (List.mem_of_mem_take hc)]
  have htext : q.text = [] ++ (q.text.take n ++ q.text.drop n) := by
    rw [List.nil_append, List.take_append_drop]
  rw [htext] at hpos
  constructor
  · intro hsome
    by_contra hlt
    have hnone : Search.position terminator (q.text.take n) = none := by
      refine Search.position_block_eq_none (u := []) (v := q.text.drop n) (by decide) ?_
      intro k hk
      have hterm : terminator.length = 4 := rfl
      rw [hpos, Option.some_inj] at hk
      rw [List.length_nil, List.length_take, ← hk, hterm]
      rw [headerLen] at hlt
      omega
    rw [hnone] at hsome
    cases hsome
  · intro hle
    rw [Search.position_block_eq_some (by decide) hpos (Nat.zero_le _) ?_]
    · rfl
    · have hterm : terminator.length = 4 := rfl
      rw [List.length_nil, List.length_take, hterm]
      rw [headerLen] at hle hlen
      omega

end Request

/-! ## What is read -/

/-- The reads behind the one in which the byte number `n` comes. -/
def readsAfter : ℕ → List (List UInt8) → List (List UInt8)
  | _, [] => []
  | n, r :: rs => if n ≤ r.length then rs else readsAfter (n - r.length) rs

/-- **The loop reads up to the end of the headers**, and what comes with it. -/
theorem readLoop_append_late {q : Request} (reads : List (List UInt8)) :
    ∀ {n : ℕ}, q.text.map byteOf = (q.text.take n).map byteOf ++ reads.flatten →
      n < q.headerLen → n ≤ q.text.length → (∀ r ∈ reads, r ≠ []) →
      ∃ m, q.headerLen ≤ m ∧ readLoop reads ((q.text.take n).map byteOf) =
          (q.text.take m).map byteOf ∧
        (readsAfter (q.headerLen - n) reads).flatten = (q.text.drop m).map byteOf := by
  induction reads with
  | nil =>
    intro n h hn hle _
    have hlen := congrArg List.length h
    rw [List.flatten_nil, List.append_nil, List.length_map, List.length_map, List.length_take,
      q.length_text] at hlen
    omega
  | cons r reads ih =>
    intro n h hn hle hne
    have hr : r ≠ [] := hne r List.mem_cons_self
    have hlen := congrArg List.length h
    have hfits := q.fits
    have htext := q.length_text
    have hcut : ((q.text.take n).map byteOf).length = n := by
      rw [List.length_map, List.length_take, Nat.min_eq_left hle]
    rw [List.flatten_cons, List.length_map, List.length_append, List.length_append, hcut] at hlen
    -- the request fits, so there is room for the read
    have hroom : r.take (bufLen - ((q.text.take n).map byteOf).length) = r := by
      rw [hcut]
      apply List.take_of_length_le
      rw [Request.headerLen] at hn htext
      omega
    have hgot : (q.text.take n).map byteOf ++ r = (q.text.take (n + r.length)).map byteOf := by
      have htake := congrArg (List.take (n + r.length)) h
      rw [← List.map_take, List.flatten_cons, ← List.append_assoc,
        List.take_left' (by rw [List.length_append, hcut])] at htake
      exact htake.symm
    rw [readLoop, hroom, if_neg hr, hgot, readsAfter]
    by_cases hend : q.headerLen ≤ n + r.length
    · rw [if_pos (.inl ((Request.find_take _).mpr hend)), if_pos (by omega)]
      refine ⟨n + r.length, hend, rfl, ?_⟩
      have hdrop := congrArg (List.drop (n + r.length)) h
      rw [← List.map_drop, List.flatten_cons, ← List.append_assoc,
        List.drop_left' (by rw [List.length_append, hcut])] at hdrop
      exact hdrop.symm
    · have hfull : ¬ ((find ((q.text.take (n + r.length)).map byteOf) (bytes terminator)).isSome ∨
          ((q.text.take (n + r.length)).map byteOf).length = bufLen) := by
        rintro (hsome | hlen')
        · exact hend ((Request.find_take _).mp hsome)
        · rw [List.length_map, List.length_take] at hlen'
          rw [Request.headerLen] at hend
          omega
      rw [if_neg hfull, if_neg (by omega), Nat.sub_sub]
      refine ih ?_ (by omega) (by omega) fun r' hr' => hne r' (List.mem_cons_of_mem _ hr')
      rw [h, List.flatten_cons, ← List.append_assoc, hgot]

/-! ## What is run -/

/-- What is run is the part of the body that was read, trimmed. -/
theorem source_eq {q : Request} {reads : List (List UInt8)} {m : ℕ} (hm : q.headerLen ≤ m)
    (h : readLoop reads [] = (q.text.take m).map byteOf) :
    source reads = trim (String.ofList (q.body.take (m - q.headerLen))) := by
  have hterm : terminator.length = 4 := rfl
  have hascii : ∀ c ∈ q.text.take m, c.toNat < 0x80 := fun c hc =>
    q.ascii_text c (List.mem_of_mem_take hc)
  have htext : fromUtf8 (readLoop reads []) = .ok (String.ofList (q.text.take m)) := by
    rw [h, show byteOf = fun c : Char => UInt8.ofNat c.toNat from rfl, ← bytes_ascii hascii,
      ← utf8_ofList, fromUtf8_utf8]
  have hsplit : q.text.take m = (q.head ++ terminator) ++ q.body.take (m - q.headerLen) := by
    rw [Request.headerLen] at hm
    rw [Request.text, ← List.append_assoc, List.take_append, List.take_of_length_le
      (by rw [List.length_append]; omega), List.length_append, hterm, Request.headerLen]
  have hposition : Search.position terminator (q.text.take m) = some q.head.length := by
    rw [hsplit]
    exact Search.position_append_left (by decide) q.blank _
  have hcut : Split.cut (Split.str terminator) (q.text.take m) =
      some (q.head, q.body.take (m - q.headerLen)) := by
    rw [Search.cut_str_eq_position, hposition, Option.map_some, hsplit, List.append_assoc,
      List.take_left, ← List.append_assoc, ← List.length_append, List.drop_left]
  rw [source, htext]
  dsimp only
  rw [String.toList_ofList, hcut]

/-- **The program that is run is the whole body** exactly if nothing but whitespace comes
after the read in which the headers end. -/
theorem source_iff (q : Request) {reads : List (List UInt8)}
    (hreads : reads.flatten = bytes q.text) (hne : ∀ r ∈ reads, r ≠ []) :
    source reads = trim (String.ofList q.body) ↔
      ∀ b ∈ (readsAfter q.headerLen reads).flatten, isWhitespace (Char.ofNat b.toNat) = true := by
  have hall : q.text.map byteOf = (q.text.take 0).map byteOf ++ reads.flatten := by
    rw [hreads, bytes_ascii q.ascii_text]
    rfl
  obtain ⟨m, hm, hread, hlate⟩ := readLoop_append_late reads hall (by rw [Request.headerLen]; omega)
    (Nat.zero_le _) hne
  have hbyte (c : Char) (hc : c.toNat < 0x80) : Char.ofNat (byteOf c).toNat = c := by
    rw [byteOf, UInt8.toNat_ofNat', Nat.mod_eq_of_lt (by omega), Char.ofNat_toNat]
  have hdrop : q.text.drop m = q.body.drop (m - q.headerLen) := by
    have hterm : terminator.length = 4 := rfl
    rw [Request.headerLen] at hm
    rw [Request.text, ← List.append_assoc, List.drop_append, List.drop_of_length_le
      (by rw [List.length_append]; omega), List.nil_append, List.length_append, hterm,
      Request.headerLen]
  have htrim := trim_append_eq_iff (q.body.take (m - q.headerLen)) (q.body.drop (m - q.headerLen))
  rw [List.take_append_drop] at htrim
  rw [Nat.sub_zero, hdrop] at hlate
  rw [source_eq hm hread, eq_comm, htrim, hlate, List.forall_mem_map]
  refine forall₂_congr fun c hc => ?_
  have hascii := q.ascii c (List.mem_append_right _ (List.mem_of_mem_drop hc))
  rw [hbyte c hascii]

/-! ### A POST in one read, and in several -/

/-- A POST of the program `1 + 2`. -/
def postRequest : Request where
  head := "POST / HTTP/1.1\r\nContent-Length: 5".toList
  body := "1 + 2".toList
  ascii := List.forall_iff_forall_mem.mp (by decide)
  blank := by decide
  fits := by decide

/-- The same program with a line end behind it. -/
def lineRequest : Request where
  head := "POST / HTTP/1.1\r\nContent-Length: 7".toList
  body := "1 + 2\r\n".toList
  ascii := List.forall_iff_forall_mem.mp (by decide)
  blank := by decide
  fits := by decide

/-- Four reads: cuts in a header and in the blank line, and the line end for itself. -/
def lineReads : List (List UInt8) :=
  [bytes "POST / HTTP/1.1\r\nCont".toList, bytes "ent-Length: 7\r\n\r".toList,
    bytes "\n1 + 2".toList, bytes "\r\n".toList]

/-- A request that comes in one read is run, and one that is cut in the headers and in the
blank line, whose last read has only whitespace. -/
theorem source_iff_post :
    source [bytes postRequest.text] = trim (String.ofList postRequest.body) ∧
      source lineReads = trim (String.ofList lineRequest.body) := by
  constructor
  · refine (source_iff postRequest (List.append_nil _) ?_).mpr ?_
    · intro r hr
      rw [List.mem_singleton.mp hr]
      decide
    · have hnone : readsAfter postRequest.headerLen [bytes postRequest.text] = [] := by decide
      rw [hnone]
      exact fun b hb => absurd hb List.not_mem_nil
  · refine (source_iff lineRequest (by decide) (by decide)).mpr ?_
    have hlate : readsAfter lineRequest.headerLen lineReads = [bytes "\r\n".toList] := by decide
    have hb : [bytes "\r\n".toList].flatten = [13, 10] := by decide
    rw [hlate, hb]
    intro b hmem
    rcases List.mem_pair.mp hmem with rfl | rfl <;> decide

/-- **A body that comes after the headers is lost**: the blank line ends the first read. -/
theorem late_body_lost :
    [bytes (postRequest.head ++ terminator), bytes postRequest.body].flatten =
        bytes postRequest.text ∧
      source [bytes (postRequest.head ++ terminator), bytes postRequest.body] = "" ∧
      trim (String.ofList postRequest.body) = "1 + 2" := by
  refine ⟨by decide, ?_, by decide⟩
  have hread : readLoop [bytes (postRequest.head ++ terminator), bytes postRequest.body] [] =
      (postRequest.text.take postRequest.headerLen).map byteOf := by decide
  rw [source_eq le_rfl hread]
  decide

end FetchServer
