/-
# Records on the control channel

The other end seals its bytes in records (`Transport.sealAll`), however it splits them,
and the records come in pieces, however TCP splits those.  A channel `Delivers` bytes when
its buffer and the records that are still to come hold them.  Every reading function takes
from the front of these bytes, so the frames that were encoded are the frames that come in
(`delivered`).

Two things need a condition.  A first frame whose header starts like an early payload is
taken for one (`frame_taken_for_payload`), and the counter of a nonce has 64 bits
(`sealNonces_nodup_iff`).
-/
import Mathlib.Data.List.Nodup
import Mathlib.Data.List.TakeWhile
import PySpell.ControlFraming
import PySpell.H2Framing

namespace Control

open Text StateOutcome NetMap.H2

variable (ae : Aead)

/-! ## Sealing -/

namespace Transport

/-- The records of these plaintexts, in order. -/
def sealAll (ae : Aead) : Transport → List (List UInt8) → List UInt8
  | _, [] => []
  | tr, p :: ps => (tr.sealRecord ae p).1 ++ sealAll ae (tr.sealRecord ae p).2 ps

/-- The nonces of these records. -/
def sealNonces (ae : Aead) : Transport → List (List UInt8) → List (Bytes 12)
  | _, [] => []
  | tr, p :: ps => beNonce tr.txNonce :: sealNonces ae (tr.sealRecord ae p).2 ps

/-- One end opens what the other end seals next. -/
structure Paired (tr peer : Transport) : Prop where
  key : tr.recv = peer.send
  nonce : tr.rxNonce = peer.txNonce

end Transport

theorem beNonce_injective {a b : UInt64} (h : beNonce a = beNonce b) : a = b := by
  have hbytes := List.append_cancel_left (congrArg Subtype.val h)
  have hnat := congrArg Bytes.toNatBe hbytes
  have hlt : ∀ x : UInt64, x.toNat < 256 ^ 8 := fun x => x.toNat_lt.trans_le (by decide)
  rw [Bytes.toNatBe_ofNatBe (hlt a), Bytes.toNatBe_ofNatBe (hlt b)] at hnat
  exact UInt64.toNat_inj.mp hnat

/-- The counter goes through the numbers. -/
theorem sealNonces_eq (tr : Transport) (ps : List (List UInt8)) :
    tr.sealNonces ae ps =
      (List.range ps.length).map fun i => beNonce (tr.txNonce + UInt64.ofNat i) := by
  induction ps generalizing tr with
  | nil => rfl
  | cons p ps ih =>
    rw [Transport.sealNonces, ih, List.length_cons, List.range_succ_eq_map, List.map_cons,
      List.map_map]
    refine congrArg₂ List.cons ?_ (List.map_congr_left fun i _ => ?_)
    · rw [show UInt64.ofNat 0 = 0 from rfl, UInt64.add_zero]
    · change beNonce (tr.txNonce + 1 + UInt64.ofNat i) = beNonce (tr.txNonce + UInt64.ofNat (i + 1))
      rw [UInt64.ofNat_add, UInt64.add_assoc, UInt64.add_comm 1]
      rfl

/-- **No nonce repeats in a session, up to 2^64 records**, and then one does. -/
theorem sealNonces_nodup_iff (send recv : Bytes 32) (ps : List (List UInt8)) :
    ((Transport.new send recv).sealNonces ae ps).Nodup ↔ ps.length ≤ 2 ^ 64 := by
  rw [sealNonces_eq]
  constructor
  · intro h
    by_contra hmany
    have hinj := List.inj_on_of_nodup_map h
    have hzero := hinj (List.mem_range.mpr (by omega : 0 < ps.length))
      (List.mem_range.mpr (by omega : 2 ^ 64 < ps.length)) rfl
    exact absurd hzero (by decide)
  · intro h
    refine List.Nodup.map_on (fun i hi j hj heq => ?_) List.nodup_range
    rw [List.mem_range] at hi hj
    have hcounter := beNonce_injective heq
    have hofNat : UInt64.ofNat i = UInt64.ofNat j := by
      simpa [Transport.new] using hcounter
    have hnat := congrArg UInt64.toNat hofNat
    have hsize : UInt64.size = 2 ^ 64 := rfl
    rwa [UInt64.toNat_ofNat_of_lt' (by omega), UInt64.toNat_ofNat_of_lt' (by omega)] at hnat

/-! ## Opening -/

/-- A frame of the control protocol is taken from the front. -/
theorem Conn.readFrame_of {c : Conn} {typ : UInt8} {payload rest : List UInt8}
    (hlen : payload.length < 2 ^ 16)
    (h : c.pending = typ :: Bytes.ofNatBe 2 payload.length ++ payload ++ rest) :
    ∃ c', readFrame c = (.ok (typ, payload), c') ∧ c'.pending = rest ∧ c'.ending = c.ending := by
  obtain ⟨a, b, hab⟩ := List.length_eq_two.mp (Bytes.length_ofNatBe 2 payload.length)
  have hnum : Bytes.toNatBe [a, b] = payload.length := by
    rw [← hab]
    exact Bytes.toNatBe_ofNatBe (hlen.trans_le (by decide))
  rw [hab] at h
  have hhead : 3 ≤ c.pending.length := by
    rw [h]
    simp
  obtain ⟨c₁, htake, hpending, hending⟩ := take_of_le hhead
  have hdr : c.pending.take 3 = [typ, a, b] := by
    rw [h]
    rfl
  have hleft : c₁.pending = payload ++ rest := by
    rw [hpending, h]
    rfl
  have hbody : payload.length ≤ c₁.pending.length := by
    rw [hleft, List.length_append]
    omega
  obtain ⟨c₂, htake', hpending', hending'⟩ := take_of_le hbody
  refine ⟨c₂, ?_, ?_, hending'.trans hending⟩
  · rw [readFrame, bind_run_of_ok htake, hdr]
    have hrest : [typ, a, b].drop 1 = [a, b] := rfl
    rw [hrest, hnum, bind_run_of_ok htake', hleft, List.take_left]
    rfl
  · rw [hpending', hleft, List.drop_left]

namespace Channel

/-- The buffer and the records to come hold these bytes. -/
structure Holds (t : Channel) (peer : Transport) (ps : List (List UInt8)) : Prop where
  paired : t.tr.Paired peer
  small : ∀ p ∈ ps, p.length + 16 < 2 ^ 16
  pending : t.conn.pending = peer.sealAll ae ps

/-- The channel will deliver these bytes. -/
def Delivers (t : Channel) (bytes : List UInt8) : Prop :=
  ∃ peer ps, t.Holds ae peer ps ∧ t.rx ++ ps.flatten = bytes

/-- Records that are there deliver what is in them. -/
theorem delivers_of_records {tr peer : Transport} {ps : List (List UInt8)} (ending : Ending)
    (hpaired : tr.Paired peer) (hsmall : ∀ p ∈ ps, p.length + 16 < 2 ^ 16) :
    Delivers ae ⟨⟨[], ending, peer.sealAll ae ps⟩, tr, []⟩ ps.flatten :=
  ⟨peer, ps, ⟨hpaired, hsmall, List.append_nil _⟩, rfl⟩

/-- **`pull` opens the next record.** -/
theorem pull_record {t : Channel} {peer : Transport} {p : List UInt8} {ps : List (List UInt8)}
    (h : t.Holds ae peer (p :: ps)) :
    ∃ t', pull ae t = (.ok (), t') ∧ t'.rx = t.rx ++ p ∧
      t'.Holds ae (peer.sealRecord ae p).2 ps ∧ t'.conn.ending = t.conn.ending := by
  have hct : (ae.encrypt peer.send (beNonce peer.txNonce) p).length < 2 ^ 16 := by
    rw [ae.length_encrypt]
    exact h.small p List.mem_cons_self
  obtain ⟨c', hread, hpending, hending⟩ := Conn.readFrame_of hct h.pending
  have hconn : onConn Conn.readFrame t = (.ok (msgRecord, ae.encrypt peer.send (beNonce peer.txNonce) p),
      { t with conn := c' }) := by
    rw [onConn, hread]
  have hopen : Transport.openRecord ae (ae.encrypt peer.send (beNonce peer.txNonce) p) t.tr =
      (.ok p, { t.tr with rxNonce := t.tr.rxNonce + 1 }) := by
    have hdecrypt : ae.decrypt t.tr.recv (beNonce t.tr.rxNonce)
        (ae.encrypt peer.send (beNonce peer.txNonce) p) = some p := by
      rw [h.paired.key, h.paired.nonce, ae.opens]
    rw [Transport.openRecord, hdecrypt]
  refine ⟨⟨c', { t.tr with rxNonce := t.tr.rxNonce + 1 }, t.rx ++ p⟩, ?_, rfl, ⟨?_, ?_, hpending⟩,
    hending⟩
  · rw [pull, bind_run_of_ok hconn]
    dsimp only
    rw [if_pos rfl, bind_run, onTransport, hopen]
    rfl
  · exact ⟨h.paired.key, congrArg (· + 1) h.paired.nonce⟩
  · exact fun q hq => h.small q (List.mem_cons_of_mem p hq)

theorem pending_of_cons {t : Channel} {peer : Transport} {p : List UInt8} {ps : List (List UInt8)}
    (h : t.Holds ae peer (p :: ps)) {t' : Channel} (h' : t'.Holds ae (peer.sealRecord ae p).2 ps) :
    t'.conn.pending.length < t.conn.pending.length := by
  rw [h.pending, h'.pending, Transport.sealAll, List.length_append, Transport.sealRecord]
  simp

/-- The loop of `read_exact` collects plaintext, and loses none. -/
theorem pullLoop_delivers (n fuel : ℕ) : ∀ {t : Channel} {bytes : List UInt8},
    t.Delivers ae bytes → t.conn.pending.length < fuel → n ≤ bytes.length →
      ∃ t', pullLoop ae n fuel t = (.ok (), t') ∧ n ≤ t'.rx.length ∧ t'.Delivers ae bytes := by
  induction fuel with
  | zero => exact fun _ h => absurd h (Nat.not_lt_zero _)
  | succ fuel ih =>
    rintro t bytes ⟨peer, ps, hholds, hbytes⟩ hfuel hn
    rw [pullLoop_succ]
    by_cases hshort : t.rx.length < n
    · rw [if_pos hshort]
      cases ps with
      | nil =>
        rw [List.flatten_nil, List.append_nil] at hbytes
        rw [hbytes] at hshort
        omega
      | cons p ps =>
        obtain ⟨t', hpull, hrx, hholds', -⟩ := pull_record ae hholds
        have hless := pending_of_cons ae hholds hholds'
        rw [bind_run_of_ok hpull]
        refine ih ⟨_, ps, hholds', ?_⟩ (by omega) hn
        rw [hrx, List.append_assoc, ← List.flatten_cons, hbytes]
    · rw [if_neg hshort]
      exact ⟨t, rfl, Nat.le_of_not_lt hshort, peer, ps, hholds, hbytes⟩

/-- **`read_exact` takes from the front of what is delivered.** -/
theorem readExact_delivers {n : ℕ} {t : Channel} {bytes : List UInt8} (h : t.Delivers ae bytes)
    (hn : n ≤ bytes.length) :
    ∃ t', readExact ae n t = (.ok (bytes.take n), t') ∧ t'.Delivers ae (bytes.drop n) := by
  obtain ⟨t', hloop, hlen, peer, ps, hholds, hbytes⟩ :=
    pullLoop_delivers ae n _ h (Nat.lt_succ_self _) hn
  refine ⟨{ t' with rx := t'.rx.drop n }, ?_, peer, ps, ⟨hholds.paired, hholds.small,
    hholds.pending⟩, ?_⟩
  · rw [readExact, bind_run_of_ok hloop, ← hbytes, List.take_append_of_le_length hlen]
    rfl
  · rw [← hbytes, List.drop_append_of_le_length hlen]

/-- When too little is delivered, all records are opened, and the connection says so. -/
theorem pullLoop_short (n fuel : ℕ) : ∀ {t : Channel} {bytes : List UInt8},
    t.Delivers ae bytes → t.conn.pending.length < fuel → bytes.length < n →
      ∃ message t', pullLoop ae n fuel t = (.err message, t') ∧ t'.rx = bytes ∧
        t'.conn.pending = [] := by
  induction fuel with
  | zero => exact fun _ h => absurd h (Nat.not_lt_zero _)
  | succ fuel ih =>
    rintro t bytes ⟨peer, ps, hholds, hbytes⟩ hfuel hn
    have hshort : t.rx.length < n := by
      rw [← hbytes, List.length_append] at hn
      omega
    rw [pullLoop_succ, if_pos hshort]
    cases ps with
    | nil =>
      rw [List.flatten_nil, List.append_nil] at hbytes
      have hnone : t.conn.pending = [] := hholds.pending
      have hfew : t.conn.pending.length < 3 := by
        rw [hnone]
        exact Nat.zero_lt_succ 2
      obtain ⟨c', htake, hsame⟩ := Conn.take_of_lt hfew
      refine ⟨t.conn.ending.message 3 t.conn.pending.length, { t with conn := c' }, ?_, hbytes,
        hsame.pending.trans hnone⟩
      rw [bind_run, pull, bind_run, onConn, Conn.readFrame, bind_run, htake]
    | cons p ps =>
      obtain ⟨t', hpull, hrx, hholds', -⟩ := pull_record ae hholds
      have hless := pending_of_cons ae hholds hholds'
      rw [bind_run_of_ok hpull]
      refine ih ⟨_, ps, hholds', ?_⟩ (by omega) hn
      rw [hrx, List.append_assoc, ← List.flatten_cons, hbytes]

/-! ## Frames -/

/-- **`read_frame` reads the frame that was encoded.** -/
theorem readFrame_delivers {fr : NetMap.Frame} (hfr : Encodable fr) {t : Channel}
    {rest : List UInt8} (h : t.Delivers ae (encode fr ++ rest)) :
    ∃ t', readFrame ae t = (.ok fr, t') ∧ t'.Delivers ae rest := by
  obtain ⟨hlen, htyp, hflags, hsid⟩ := header_fields hfr
  have hnine := length_header fr
  rw [encode_eq, List.append_assoc] at h
  have hroom : 9 ≤ (header fr ++ (fr.payload ++ rest)).length := by
    rw [List.length_append]
    omega
  obtain ⟨t₁, hread, hdelivers⟩ := readExact_delivers ae h hroom
  rw [List.take_left' hnine] at hread
  rw [List.drop_left' hnine] at hdelivers
  rw [readFrame, bind_run_of_ok hread]
  dsimp only
  rw [hlen, htyp, hflags, hsid]
  by_cases hpos : 0 < fr.payload.length
  · have hbody : fr.payload.length ≤ (fr.payload ++ rest).length := by
      rw [List.length_append]
      omega
    obtain ⟨t₂, hread', hdelivers'⟩ := readExact_delivers ae hdelivers hbody
    rw [List.take_left] at hread'
    rw [List.drop_left] at hdelivers'
    rw [if_pos hpos, bind_run_of_ok hread']
    exact ⟨t₂, rfl, hdelivers'⟩
  · have hnil : fr.payload = [] := List.eq_nil_of_length_eq_zero (by omega)
    rw [hnil, List.nil_append] at hdelivers
    rw [if_neg hpos]
    refine ⟨t₁, ?_, hdelivers⟩
    rw [bind_run_of_ok (pure_run [] t₁), ← hnil]
    rfl

/-- When no header of a frame is delivered, the call fails, and so does every later one. -/
theorem readFrame_short {t : Channel} {bytes : List UInt8} (h : t.Delivers ae bytes)
    (hshort : bytes.length < 9) :
    ∃ message t', readFrame ae t = (.err message, t') ∧ t'.Exhausted := by
  obtain ⟨message, t', hloop, hrx, hpending⟩ :=
    pullLoop_short ae 9 _ h (Nat.lt_succ_self _) hshort
  refine ⟨message, t', ?_, ?_, ?_⟩
  · rw [readFrame, bind_run, readExact, bind_run, hloop]
  · rw [hrx]
    exact hshort
  · rw [hpending]
    exact Nat.zero_lt_succ 2

/-- A frame whose reserved bit is clear comes in as it is. -/
abbrev CleanFrame := {fr : NetMap.Frame // Encodable fr}

/-- What `read_frame` returns for it. -/
def arrival (fr : CleanFrame) : Read := .frame ⟨fr.val, fr.property.length⟩

theorem toRead_ok (fr : CleanFrame) : toRead (.ok fr.val) = arrival fr :=
  dif_pos fr.property.length

/-- An error and no frame. -/
def Failed (r : Read) : Prop := ∃ message, r = .failed message

/-- **The frames come in, in order**, and nothing else but errors. -/
theorem inbound_delivers {frames : List CleanFrame} : ∀ {t : Channel},
    t.Delivers ae (frames.flatMap fun fr => encode fr.val) →
      ∃ rest, (inbound ae t).1 = frames.map arrival ++ rest ∧ ∀ r ∈ rest, Failed r := by
  induction frames with
  | nil =>
    intro t h
    by_cases hend : t.Exhausted
    · rw [inbound_of_exhausted ae hend]
      exact ⟨[], rfl, fun r hr => absurd hr List.not_mem_nil⟩
    · obtain ⟨message, t', hread, hend'⟩ := readFrame_short ae h (Nat.zero_lt_succ 8)
      rw [inbound_of_left ae hend, hread, inbound_of_exhausted ae hend']
      exact ⟨[.failed message], rfl, fun r hr => ⟨message, List.mem_singleton.mp hr⟩⟩
  | cons fr frames ih =>
    intro t h
    rw [List.flatMap_cons] at h
    obtain ⟨t', hread, hdelivers⟩ := readFrame_delivers ae fr.property h
    have hleft : ¬ t.Exhausted := by
      intro hend
      obtain ⟨t'', hfail, -⟩ := readFrame_exhausted ae hend
      rw [hread] at hfail
      cases hfail
    obtain ⟨rest, hrest, hfailed⟩ := ih hdelivers
    rw [inbound_of_left ae hleft, hread]
    dsimp only
    rw [hrest, toRead_ok]
    exact ⟨rest, rfl, hfailed⟩

/-! ## The early payload -/

/-- An early payload as it is sent. -/
def encodeEarly (json : List UInt8) : List UInt8 :=
  earlyMagic ++ Bytes.ofNatBe 4 json.length ++ json

theorem consumeEarlyPayload_some {json rest : List UInt8} (hjson : json.length < 2 ^ 32)
    {t : Channel} (h : t.Delivers ae (encodeEarly json ++ rest)) :
    ∃ t', consumeEarlyPayload ae t = (.ok (some json), t') ∧ t'.Delivers ae rest := by
  have hnum : Bytes.toNatBe (Bytes.ofNatBe 4 json.length) = json.length :=
    Bytes.toNatBe_ofNatBe (hjson.trans_le (by decide))
  have hnine : (earlyMagic ++ Bytes.ofNatBe 4 json.length).length = 9 := by
    rw [List.length_append, Bytes.length_ofNatBe]
    rfl
  rw [encodeEarly, List.append_assoc] at h
  have hroom : 9 ≤ (earlyMagic ++ Bytes.ofNatBe 4 json.length ++ (json ++ rest)).length := by
    rw [List.length_append]
    omega
  obtain ⟨t₁, hread, hdelivers⟩ := readExact_delivers ae h hroom
  rw [List.take_left' hnine] at hread
  rw [List.drop_left' hnine] at hdelivers
  have hbody : json.length ≤ (json ++ rest).length := by
    rw [List.length_append]
    omega
  obtain ⟨t₂, hread', hdelivers'⟩ := readExact_delivers ae hdelivers hbody
  rw [List.take_left] at hread'
  rw [List.drop_left] at hdelivers'
  have hmagic : (earlyMagic ++ Bytes.ofNatBe 4 json.length).take 5 = earlyMagic :=
    List.take_left' rfl
  have hdrop : (earlyMagic ++ Bytes.ofNatBe 4 json.length).drop 5 =
      Bytes.ofNatBe 4 json.length := List.drop_left' rfl
  refine ⟨t₂, ?_, hdelivers'⟩
  rw [consumeEarlyPayload, bind_run_of_ok hread, hmagic, if_pos rfl, hdrop, hnum,
    bind_run_of_ok hread']
  rfl

/-- Otherwise the nine bytes are pushed back. -/
theorem consumeEarlyPayload_none {bytes : List UInt8} (hroom : 9 ≤ bytes.length)
    (hmagic : bytes.take 5 ≠ earlyMagic) {t : Channel} (h : t.Delivers ae bytes) :
    ∃ t', consumeEarlyPayload ae t = (.ok none, t') ∧ t'.Delivers ae bytes := by
  obtain ⟨t₁, hread, peer, ps, hholds, hbytes⟩ := readExact_delivers ae h hroom
  have hfive : (bytes.take 9).take 5 = bytes.take 5 := by
    rw [List.take_take]
    rfl
  refine ⟨{ t₁ with rx := bytes.take 9 ++ t₁.rx }, ?_, peer, ps,
    ⟨hholds.paired, hholds.small, hholds.pending⟩, ?_⟩
  · rw [consumeEarlyPayload, bind_run_of_ok hread, hfive, if_neg hmagic]
    rfl
  · rw [List.append_assoc, hbytes, List.take_append_drop]

end Channel

/-! ## The upgrade -/

/-- The head of a response that the client accepts: it ends with the first empty line. -/
structure Accepted (head : List UInt8) : Prop where
  ends : Search.position headEnd head = some (head.length - 4)
  short : head.length ≤ 8192
  status : (Search.position (utf8 " 101 ") (utf8 (statusLine head))).isSome = true

theorem headEnd_ne_nil : headEnd ≠ [] := by decide

theorem Accepted.four_le {head : List UInt8} (h : Accepted head) : 4 ≤ head.length := by
  have hmatch := ((Search.position_eq_some headEnd_ne_nil).mp h.ends).1
  have hlen := Search.add_length_le_of_prefix headEnd_ne_nil hmatch
  exact (Nat.le_add_left 4 _).trans hlen

/-- The loop of `connect_and_upgrade` reads up to the end of the head, or a bit further. -/
theorem upgradeLoop_of {head rest : List UInt8} (h : Accepted head) (ending : Ending)
    {pieces : List Piece} : ∀ {acc : List UInt8},
    acc ++ (pieces.map Subtype.val).flatten = head ++ rest → acc.length < head.length →
      ∃ more pieces', upgradeLoop ending pieces acc = .ok (head ++ more, head.length, pieces') ∧
        more ++ (pieces'.map Subtype.val).flatten = rest := by
  have hfour := h.four_le
  induction pieces with
  | nil =>
    intro acc hall hshort
    have hlen := congrArg List.length hall
    simp only [List.map_nil, List.flatten_nil, List.append_nil, List.length_append] at hlen
    omega
  | cons piece pieces ih =>
    intro acc hall hshort
    rw [List.map_cons, List.flatten_cons, ← List.append_assoc] at hall
    rw [upgradeLoop]
    by_cases hend : head.length ≤ (acc ++ piece.val).length
    · obtain ⟨more, hmore⟩ : head <+: acc ++ piece.val :=
        List.prefix_of_prefix_length_le ⟨rest, hall.symm⟩ (List.prefix_append _ _) hend
      rw [← hmore, Search.position_append_left headEnd_ne_nil h.ends]
      refine ⟨more, pieces, ?_, ?_⟩
      · dsimp only
        rw [Nat.sub_add_cancel hfour]
      · rw [← hmore, List.append_assoc] at hall
        exact List.append_cancel_left hall
    · obtain ⟨v, hv⟩ : acc ++ piece.val <+: head :=
        List.prefix_of_prefix_length_le ⟨_, hall⟩ (List.prefix_append head rest) (by omega)
      have hnone : Search.position headEnd (acc ++ piece.val) = none := by
        refine Search.position_block_eq_none (u := []) (v := v) headEnd_ne_nil fun p hp => ?_
        rw [List.nil_append, hv, h.ends, Option.some_inj] at hp
        have hpat : headEnd.length = 4 := rfl
        rw [List.length_nil, hpat]
        omega
      have hfits := h.short
      rw [hnone]
      dsimp only
      rw [if_neg (by omega)]
      exact ih hall (by omega)

/-- **Bytes behind the head are kept**, in the buffer or in the pieces. -/
theorem connectAndUpgrade_of {head rest : List UInt8} (h : Accepted head) (ending : Ending)
    {pieces : List Piece} (hpieces : (pieces.map Subtype.val).flatten = head ++ rest) :
    ∃ c, connectAndUpgrade ending pieces = .ok c ∧ c.pending = rest ∧ c.ending = ending := by
  have hfour := h.four_le
  obtain ⟨more, pieces', hloop, hrest⟩ := upgradeLoop_of h ending (List.nil_append _ ▸ hpieces)
    (by rw [List.length_nil]; omega)
  have hline : statusLine (head ++ more) = statusLine head := by
    rw [statusLine, statusLine, List.takeWhile_append, if_neg]
    intro hlen
    -- there is a line feed in the head
    have hself : head.takeWhile (· ≠ '\n'.toUInt8) = head :=
      (List.takeWhile_prefix _).eq_of_length hlen
    have hmatch := ((Search.position_eq_some headEnd_ne_nil).mp h.ends).1
    have hmem : '\n'.toUInt8 ∈ head :=
      List.mem_of_mem_drop (hmatch.subset (by decide : '\n'.toUInt8 ∈ headEnd))
    have hall := List.takeWhile_eq_self_iff.mp hself _ hmem
    simp at hall
  refine ⟨⟨pieces', ending, more⟩, ?_, hrest, rfl⟩
  rw [connectAndUpgrade, hloop]
  dsimp only
  rw [hline, if_pos h.status, List.drop_left]

/-! ## The whole way -/

/-- `MSG_RESPONSE`. -/
def msgResponse : UInt8 := 2

/-- The frame looks like the start of an early payload. -/
def LooksEarly (fr : NetMap.Frame) : Prop :=
  fr.payload.length = 2 ^ 24 - 1 ∧ fr.typ = 0x54 ∧ fr.flags = 0x53

/-- What the server says first: an early payload, or a frame that is not taken for one. -/
def Opens : Option (List UInt8) → List Channel.CleanFrame → Prop
  | some json, _ => json.length < 2 ^ 32
  | none, [] => False
  | none, fr :: _ => ¬ LooksEarly fr.val

def earlyBytes : Option (List UInt8) → List UInt8
  | some json => Channel.encodeEarly json
  | none => []

theorem take_five_encode {fr : NetMap.Frame} (hfr : Encodable fr) (hlooks : ¬ LooksEarly fr)
    (rest : List UInt8) : (encode fr ++ rest).take 5 ≠ Channel.earlyMagic := by
  intro h
  apply hlooks
  have hnine := length_header fr
  obtain ⟨hlen, htyp, hflags, -⟩ := header_fields hfr
  have hfive : (header fr).take 5 = Channel.earlyMagic := by
    rwa [encode_eq, List.append_assoc, List.take_append_of_le_length (by omega)] at h
  have hget : ∀ i < 5, (header fr).getD i 0 = Channel.earlyMagic.getD i 0 := by
    intro i hi
    rw [← hfive, List.getD_eq_getElem?_getD, List.getD_eq_getElem?_getD,
      List.getElem?_take_of_lt hi]
  refine ⟨?_, ?_, ?_⟩
  · have hthree : (header fr).take 3 = Channel.earlyMagic.take 3 := by
      rw [← hfive, List.take_take]
      rfl
    rw [← hlen, hthree]
    rfl
  · rw [← htyp, hget 3 (by decide)]
    rfl
  · rw [← hflags, hget 4 (by decide)]
    rfl

/-! ### What is delivered -/

/-- **Framing on the control channel.**  The server accepts the upgrade, answers the
handshake, and seals an early payload and frames, in whatever records; the bytes come in
whatever pieces.  Then the client reads the response, the early payload and the frames, in
order, and no other frame; and no nonce repeats within 2^64 records. -/
theorem delivered {head resp : List UInt8} {early : Option (List UInt8)}
    {frames : List Channel.CleanFrame} {ps : List (List UInt8)} {send recv : Bytes 32}
    {pieces : List Piece} {ending : Ending} (hhead : Accepted head) (hresp : resp.length < 2 ^ 16)
    (hopens : Opens early frames) (hsmall : ∀ p ∈ ps, p.length + 16 < 2 ^ 16)
    (hps : ps.flatten = earlyBytes early ++ frames.flatMap fun fr => encode fr.val)
    (hpieces : (pieces.map Subtype.val).flatten =
      head ++ (msgResponse :: Bytes.ofNatBe 2 resp.length ++ resp ++
        (Transport.new recv send).sealAll ae ps)) :
    (∃ c c' t rest, connectAndUpgrade ending pieces = .ok c ∧
      Conn.readFrame c = (.ok (msgResponse, resp), c') ∧
      Channel.consumeEarlyPayload ae ⟨c', Transport.new send recv, []⟩ = (.ok early, t) ∧
      (Channel.inbound ae t).1 = frames.map Channel.arrival ++ rest ∧
      ∀ r ∈ rest, Channel.Failed r) ∧
    ∀ (k k' : Bytes 32) (qs : List (List UInt8)), qs.length ≤ 2 ^ 64 →
      ((Transport.new k k').sealNonces ae qs).Nodup := by
  refine ⟨?_, fun k k' qs => (sealNonces_nodup_iff ae k k' qs).mpr⟩
  obtain ⟨c, hupgrade, hpending, -⟩ := connectAndUpgrade_of hhead ending hpieces
  obtain ⟨c', hread, hpending', -⟩ := Conn.readFrame_of hresp hpending
  have hdelivers : Channel.Delivers ae ⟨c', Transport.new send recv, []⟩
      (earlyBytes early ++ frames.flatMap fun fr => encode fr.val) :=
    ⟨Transport.new recv send, ps, ⟨⟨rfl, rfl⟩, hsmall, hpending'⟩, hps⟩
  have hearly : ∃ t, Channel.consumeEarlyPayload ae ⟨c', Transport.new send recv, []⟩ =
      (.ok early, t) ∧ t.Delivers ae (frames.flatMap fun fr => encode fr.val) := by
    cases early with
    | some json => exact Channel.consumeEarlyPayload_some ae hopens hdelivers
    | none =>
      cases frames with
      | nil => exact hopens.elim
      | cons fr frames =>
        have hnine := length_header fr.val
        refine Channel.consumeEarlyPayload_none ae ?_ ?_ hdelivers
        · rw [List.flatMap_cons, encode_eq, List.append_assoc, List.length_append]
          omega
        · exact take_five_encode fr.property hopens _
  obtain ⟨t, hconsume, hframes⟩ := hearly
  obtain ⟨rest, hrest, hfailed⟩ := Channel.inbound_delivers ae hframes
  exact ⟨c, c', t, rest, hupgrade, hread, hconsume, hrest, hfailed⟩

/-! ### A handshake with early bytes -/

/-- A key of either end. -/
def keyA : Bytes 32 := ⟨List.replicate 32 1, rfl⟩
def keyB : Bytes 32 := ⟨List.replicate 32 2, rfl⟩

/-- The head of a response, and the first frame of a server. -/
def switching : List UInt8 := utf8 "HTTP/1.1 101 Switching Protocols\r\n\r\n"

def serverSettings : Channel.CleanFrame := ⟨⟨NetMap.ftSettings, 0, 0, []⟩, ⟨by decide, rfl⟩⟩

/-- All of it in one piece, the frame in two records. -/
def serverBytes : List UInt8 :=
  switching ++ (msgResponse :: Bytes.ofNatBe 2 [9, 9].length ++ [9, 9] ++
    (Transport.new keyB keyA).sealAll chachaPoly [[0, 0, 0, 4], [0, 0, 0, 0, 0]])

theorem switching_accepted : Accepted switching where
  ends := rfl
  short := by
    have hlen : switching.length = 36 := rfl
    rw [hlen]
    decide
  status := by
    have hline : switching.takeWhile (· ≠ '\n'.toUInt8) =
        utf8 "HTTP/1.1 101 Switching Protocols\r" := rfl
    have htrim : trim "HTTP/1.1 101 Switching Protocols\r" =
        "HTTP/1.1 101 Switching Protocols" := rfl
    rw [statusLine, hline, fromUtf8Lossy_utf8, htrim]
    rfl

theorem delivered_settings :
    ∃ c c' t rest, connectAndUpgrade .closed [⟨serverBytes, List.cons_ne_nil _ _⟩] = .ok c ∧
      Conn.readFrame c = (.ok (msgResponse, [9, 9]), c') ∧
      Channel.consumeEarlyPayload chachaPoly ⟨c', Transport.new keyA keyB, []⟩ = (.ok none, t) ∧
      (Channel.inbound chachaPoly t).1 = [serverSettings].map Channel.arrival ++ rest ∧
      ∀ r ∈ rest, Channel.Failed r := by
  have hopens : Opens none [serverSettings] := fun h => absurd h.1 (by decide)
  have hsmall : ∀ p ∈ [[0, 0, 0, 4], [0, 0, 0, 0, (0 : UInt8)]], p.length + 16 < 2 ^ 16 := by
    intro p hp
    rw [List.mem_cons, List.mem_singleton] at hp
    rcases hp with rfl | rfl
    · exact (by decide : 4 + 16 < 2 ^ 16)
    · exact (by decide : 5 + 16 < 2 ^ 16)
  exact (delivered chachaPoly switching_accepted (by decide) hopens hsmall rfl
    (List.append_nil _)).1

/-- A frame of the greatest length, of a kind that is not known. -/
def lostFrame : Channel.CleanFrame :=
  ⟨⟨0x54, 0x53, 0, List.replicate (2 ^ 24 - 1) 0⟩,
    ⟨by rw [List.length_replicate]; exact Nat.sub_lt (Nat.two_pow_pos 24) Nat.one_pos, rfl⟩⟩

/-- The frame comes in, a byte in a record. -/
def lostChannel : Channel where
  conn := ⟨[], .closed,
    (Transport.new keyB keyA).sealAll chachaPoly ((encode lostFrame.val).map fun b => [b])⟩
  tr := Transport.new keyA keyB
  rx := []

theorem lostChannel_delivers : lostChannel.Delivers chachaPoly (encode lostFrame.val) := by
  have hsmall : ∀ p ∈ (encode lostFrame.val).map fun b => [b], p.length + 16 < 2 ^ 16 := by
    intro p hp
    obtain ⟨b, -, rfl⟩ := List.mem_map.mp hp
    exact (by decide : 1 + 16 < 2 ^ 16)
  have hpaired : (Transport.new keyA keyB).Paired (Transport.new keyB keyA) := ⟨rfl, rfl⟩
  have hdelivers := Channel.delivers_of_records chachaPoly .closed hpaired hsmall
  rw [← List.flatMap_def, List.flatMap_singleton'] at hdelivers
  exact hdelivers

/-- **A frame is taken for an early payload**, and is lost; and a nonce repeats after 2^64
records. -/
theorem frame_taken_for_payload :
    (∃ t, Channel.consumeEarlyPayload chachaPoly lostChannel = (.ok (some []), t)) ∧
      ¬ ((Transport.new keyA keyB).sealNonces chachaPoly
        (List.replicate (2 ^ 64 + 1) [])).Nodup := by
  have hheader : header lostFrame.val = Channel.encodeEarly [] := by
    change Bytes.ofNatBe 3 (List.replicate (2 ^ 24 - 1) (0 : UInt8)).length ++ [0x54, 0x53] ++
      Bytes.ofNatBe 4 0 = _
    rw [List.length_replicate]
    rfl
  have hdelivers := lostChannel_delivers
  rw [encode_eq, hheader] at hdelivers
  obtain ⟨t, ht, -⟩ := Channel.consumeEarlyPayload_some chachaPoly (by decide) hdelivers
  refine ⟨⟨t, ht⟩, fun h => ?_⟩
  have hlen := (sealNonces_nodup_iff chachaPoly keyA keyB _).mp h
  rw [List.length_replicate] at hlen
  omega

end Control
