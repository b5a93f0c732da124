/-
# The handshake agrees

The initiator's message is read back by the responder, the responder's by the
initiator, and both derive the same pair of transport keys, each for the other
direction (`handshake_agrees`).

The two sides mix the same values in the same order.  Where they differ is in how they
come by them: a field of a message instead of the value itself (`initiation_fields`,
`response_fields`), and a Diffie–Hellman result from the other pair of keys.
-/
import PySpell.Wg

open Text Bytes

namespace Wg

/-! ## The messages -/

/-- A number of a message, where the layout puts it. -/
theorem u32At_of_slice {l : List UInt8} {off : ℕ} {x : UInt32} (h : slice l off 4 = leU32 x) :
    u32At l off = x := by
  have hx := x.toNat_lt
  rw [u32At, h, leU32, Bytes.toNat_ofNat (by omega)]
  exact UInt32.ofNat_toNat

/-- A key of a message, where the layout puts it. -/
theorem key32At_of_slice {l : List UInt8} {off : ℕ} {k : Bytes 32} (h : slice l off 32 = k)
    (hlen : off + 32 ≤ l.length) : key32At l off hlen = k := Subtype.ext h

/-- A byte that was put at the start. -/
theorem getD_of_slice {l : List UInt8} {b : UInt8} (h : slice l 0 1 = [b]) : l.getD 0 0 = b := by
  have hb : slice l 0 1 = slice [b] 0 1 := h
  rw [getD_eq_of_slice hb]
  rfl

section

variable {ephPub encStatic encTs encEmpty : List UInt8}

/-- **The fields of an initiation** are where they are read. -/
theorem initiation_fields (ourIndex : UInt32) (heph : ephPub.length = 32)
    (hstatic : encStatic.length = 48) (hts : encTs.length = 28) (mac : Bytes 16) :
    let init := put (layoutInitiation ourIndex ephPub encStatic encTs) 116 mac
    init.length = initLen ∧ init.getD 0 0 = msgInitiation ∧ u32At init 4 = ourIndex ∧
      slice init 8 32 = ephPub ∧ slice init 40 48 = encStatic ∧ slice init 88 28 = encTs := by
  intro init
  obtain ⟨pieces, hpieces⟩ : ∃ pieces, pieces = [(0, [msgInitiation]), (4, leU32 ourIndex),
      (8, ephPub), (40, encStatic), (88, encTs), (116, mac)] := ⟨_, rfl⟩
  have hinit : init = puts (zeros initLen) pieces := by
    rw [hpieces]
    rfl
  have hidx : (leU32 ourIndex).length = 4 := length_ofNat 4 _
  have hzeros : (zeros initLen).1.length = 148 := (zeros initLen).2
  have hdisj : pieces.Pairwise fun p q => p.1 + p.2.length ≤ q.1 := by
    rw [hpieces]
    simp [heph, hstatic, hts, hidx]
  have hfit : ∀ p ∈ pieces, p.1 + p.2.length ≤ (zeros initLen).1.length := by
    rw [hpieces, hzeros]
    simp [heph, hstatic, hts, mac.2, hidx]
  have hread : ∀ off b, (off, b) ∈ pieces → slice init off b.length = b := by
    intro off b hmem
    rw [hinit]
    exact slice_puts hdisj hfit hmem
  refine ⟨?_, getD_of_slice ?_, u32At_of_slice ?_, ?_, ?_, ?_⟩
  · rw [hinit, length_puts hfit]
    exact hzeros
  · exact hread 0 [msgInitiation] (by simp [hpieces])
  · rw [← hidx]
    exact hread 4 (leU32 ourIndex) (by simp [hpieces])
  · rw [← heph]
    exact hread 8 ephPub (by simp [hpieces])
  · rw [← hstatic]
    exact hread 40 encStatic (by simp [hpieces])
  · rw [← hts]
    exact hread 88 encTs (by simp [hpieces])

/-- **The fields of a response** are where they are read. -/
theorem response_fields (ourIndex theirIndex : UInt32) (heph : ephPub.length = 32)
    (hempty : encEmpty.length = 16) (mac : Bytes 16) :
    let resp := put (layoutResponse ourIndex theirIndex ephPub encEmpty) 60 mac
    resp.length = respLen ∧ resp.getD 0 0 = msgResponse ∧ u32At resp 4 = ourIndex ∧
      u32At resp 8 = theirIndex ∧ slice resp 12 32 = ephPub ∧ slice resp 44 16 = encEmpty := by
  intro resp
  obtain ⟨pieces, hpieces⟩ : ∃ pieces, pieces = [(0, [msgResponse]), (4, leU32 ourIndex),
      (8, leU32 theirIndex), (12, ephPub), (44, encEmpty), (60, mac)] := ⟨_, rfl⟩
  have hresp : resp = puts (zeros respLen) pieces := by
    rw [hpieces]
    rfl
  have hour : (leU32 ourIndex).length = 4 := length_ofNat 4 _
  have htheir : (leU32 theirIndex).length = 4 := length_ofNat 4 _
  have hzeros : (zeros respLen).1.length = 92 := (zeros respLen).2
  have hdisj : pieces.Pairwise fun p q => p.1 + p.2.length ≤ q.1 := by
    rw [hpieces]
    simp [heph, hempty, hour, htheir]
  have hfit : ∀ p ∈ pieces, p.1 + p.2.length ≤ (zeros respLen).1.length := by
    rw [hpieces, hzeros]
    simp [heph, hempty, mac.2, hour, htheir]
  have hread : ∀ off b, (off, b) ∈ pieces → slice resp off b.length = b := by
    intro off b hmem
    rw [hresp]
    exact slice_puts hdisj hfit hmem
  refine ⟨?_, getD_of_slice ?_, u32At_of_slice ?_, u32At_of_slice ?_, ?_, ?_⟩
  · rw [hresp, length_puts hfit]
    exact hzeros
  · exact hread 0 [msgResponse] (by simp [hpieces])
  · rw [← hour]
    exact hread 4 (leU32 ourIndex) (by simp [hpieces])
  · rw [← htheir]
    exact hread 8 (leU32 theirIndex) (by simp [hpieces])
  · rw [← heph]
    exact hread 12 ephPub (by simp [hpieces])
  · rw [← hempty]
    exact hread 44 encEmpty (by simp [hpieces])

end

/-! ## What both sides mix -/

variable (cr : Crypto)

/-- The second key of `kdf2`. -/
def kdf2Key (key : Bytes 32) (input : List UInt8) : Bytes 32 := (kdf2 cr key input).2

/-- The chaining key and the handshake hash. -/
structure Mixed where
  c : Bytes 32
  h : Bytes 32

namespace Mixed

/-- After the initiator's ephemeral key. -/
def first (responderPub ephPub : Bytes 32) : Mixed :=
  ⟨kdf1 cr (start cr responderPub).1 ephPub, hash cr [(start cr responderPub).2, ephPub]⟩

/-- A payload under a shared secret. -/
def payload (m : Mixed) (secret : Bytes 32) (pt : List UInt8) : List UInt8 :=
  sealMsg cr (kdf2Key cr m.c secret) 0 pt m.h

/-- After the shared secret and its payload. -/
def after (m : Mixed) (secret : Bytes 32) (enc : List UInt8) : Mixed :=
  ⟨kdf1 cr m.c secret, hash cr [m.h, enc]⟩

/-- The chaining key after the responder's ephemeral key and its two shared secrets. -/
def chain (m : Mixed) (ephPub ee se : Bytes 32) : Bytes 32 :=
  kdf1 cr (kdf1 cr (kdf1 cr m.c ephPub) ee) se

/-- After the response, up to its empty payload. -/
def second (m : Mixed) (ephPub ee se : Bytes 32) : Mixed :=
  ⟨(kdf3 cr (m.chain cr ephPub ee se) zeroPsk).1,
    hash cr [hash cr [m.h, ephPub], (kdf3 cr (m.chain cr ephPub ee se) zeroPsk).2.1]⟩

/-- The key of the empty payload. -/
def pskKey (m : Mixed) (ephPub ee se : Bytes 32) : Bytes 32 :=
  (kdf3 cr (m.chain cr ephPub ee se) zeroPsk).2.2

end Mixed

/-- A sealed message is longer by its tag. -/
theorem length_sealMsg (key : Bytes 32) (counter : UInt64) (pt aad : List UInt8) :
    (sealMsg cr key counter pt aad).length = pt.length + 16 := cr.length_encrypt _ _ _ _

/-- What is sealed under a key and a counter is opened under them. -/
theorem openMsg_sealMsg (h : cr.Opens) (key : Bytes 32) (counter : UInt64) (pt aad : List UInt8) :
    openMsg cr key counter (sealMsg cr key counter pt aad) aad = some pt := h _ _ _ _

/-! ## The two sides -/

section

variable {cr} {si sp : Bytes 32}

/-- **What the responder makes of an initiation** whose payloads it can open. -/
theorem consumeInitiation_eq {sr pub eI sI : Bytes 32} {i : UInt32}
    {init encStatic encTs ts : List UInt8} (r : UInt32) (er : Bytes 32)
    (hlen : init.length = initLen)
    (htype : init.getD 0 0 = msgInitiation) (hidx : u32At init 4 = i)
    (heph : slice init 8 32 = eI) (hstatic : slice init 40 48 = encStatic)
    (hts : slice init 88 28 = encTs)
    (hopen : openMsg cr (kdf2Key cr (Mixed.first cr pub eI).c (cr.dh sr eI)) 0 encStatic
      (Mixed.first cr pub eI).h = some sI)
    (hopenTs : openMsg cr (kdf2Key cr
      ((Mixed.first cr pub eI).after cr (cr.dh sr eI) encStatic).c (cr.dh sr sI)) 0 encTs
      ((Mixed.first cr pub eI).after cr (cr.dh sr eI) encStatic).h = some ts) :
    let m := ((Mixed.first cr pub eI).after cr (cr.dh sr eI) encStatic).after cr (cr.dh sr sI) encTs
    let m' := m.second cr (cr.pubkey er) (cr.dh er eI) (cr.dh er sI)
    ∃ mac : Bytes 16, consumeInitiation cr sr pub init r er =
      .ok (put (layoutResponse r i (cr.pubkey er) (sealMsg cr
          (m.pskKey cr (cr.pubkey er) (cr.dh er eI) (cr.dh er sI)) 0 [] m'.h)) 60 mac,
        ⟨(kdf2 cr m'.c []).2, (kdf2 cr m'.c []).1, i, r, 0⟩, sI) := by
  intro m m'
  have hshort : ¬ init.length < initLen := by omega
  have hkey : key32At init 8 (by unfold initLen at hlen; omega) = eI := key32At_of_slice heph _
  unfold consumeInitiation
  rw [dif_neg hshort, if_neg (not_not.mpr htype)]
  dsimp only
  rw [hkey, hidx, hstatic, hts]
  have hopen' : openMsg cr (kdf2 cr (kdf1 cr (start cr pub).1 eI) (cr.dh sr eI)).2 0 encStatic
      (hash cr [(start cr pub).2, eI]) = some sI.1 := hopen
  rw [hopen']
  dsimp only
  rw [dif_neg (not_not.mpr sI.2)]
  have hopenTs' : openMsg cr (kdf2 cr (kdf2 cr (kdf1 cr (start cr pub).1 eI) (cr.dh sr eI)).1
      (cr.dh sr sI)).2 0 encTs (hash cr [hash cr [(start cr pub).2, eI], encStatic]) =
      some ts := hopenTs
  rw [hopenTs']
  exact ⟨_, rfl⟩

/-- **What the initiator makes of a response** whose payload it can open. -/
theorem consumeResponse_eq (hs : Handshake) {eR : Bytes 32} {r : UInt32}
    {resp encEmpty : List UInt8} (hlen : resp.length = respLen)
    (htype : resp.getD 0 0 = msgResponse) (hidx : u32At resp 4 = r)
    (hour : u32At resp 8 = hs.ourIndex) (heph : slice resp 12 32 = eR)
    (hempty : slice resp 44 16 = encEmpty)
    (hopen : openMsg cr ((⟨hs.chaining, hs.hash⟩ : Mixed).pskKey cr eR (cr.dh hs.ephPriv eR)
      (cr.dh hs.ourStaticPriv eR)) 0 encEmpty
      ((⟨hs.chaining, hs.hash⟩ : Mixed).second cr eR (cr.dh hs.ephPriv eR)
        (cr.dh hs.ourStaticPriv eR)).h = some []) :
    let m := (⟨hs.chaining, hs.hash⟩ : Mixed).second cr eR (cr.dh hs.ephPriv eR)
      (cr.dh hs.ourStaticPriv eR)
    hs.consumeResponse cr resp =
      .ok ⟨(kdf2 cr m.c []).1, (kdf2 cr m.c []).2, r, hs.ourIndex, 0⟩ := by
  intro m
  have hshort : ¬ resp.length < respLen := by omega
  have hkey : key32At resp 12 (by unfold respLen at hlen; omega) = eR := key32At_of_slice heph _
  unfold Handshake.consumeResponse
  rw [dif_neg hshort, if_neg (not_not.mpr htype)]
  dsimp only
  rw [hkey, hidx, hour, hempty, if_neg (not_not.mpr rfl)]
  have hopen' : openMsg cr (kdf3 cr (kdf1 cr (kdf1 cr (kdf1 cr hs.chaining eR)
      (cr.dh hs.ephPriv eR)) (cr.dh hs.ourStaticPriv eR)) zeroPsk).2.2 0 encEmpty
      (Wg.hash cr [Wg.hash cr [hs.hash, eR], (kdf3 cr (kdf1 cr (kdf1 cr (kdf1 cr hs.chaining eR)
        (cr.dh hs.ephPriv eR)) (cr.dh hs.ourStaticPriv eR)) zeroPsk).2.1]) = some [] := hopen
  rw [hopen']
  rfl

/-- What is accepted is an initiation. -/
theorem head_of_consumeInitiation {nodePriv pub eph : Bytes 32} {init : List UInt8} {r : UInt32}
    {out : List UInt8 × Tunnel × Bytes 32}
    (h : consumeInitiation cr nodePriv pub init r eph = .ok out) : init.head? = some 1 := by
  unfold consumeInitiation at h
  split at h
  · cases h
  next hlen =>
  split at h
  · cases h
  next htype =>
  cases init with
  | nil => exact absurd (by decide) hlen
  | cons b rest => exact congrArg some (not_not.mp htype)

end

/-! ## Agreement -/

/-- Two tunnels are the ends of one: what one sends with, the other receives with, and
each knows the other's index. -/
structure Paired (a b : Tunnel) : Prop where
  send : a.sendKey = b.recvKey
  recv : a.recvKey = b.sendKey
  theirs : a.theirIndex = b.ourIndex
  ours : a.ourIndex = b.theirIndex

/-- A handshake between two nodes comes to an end: the responder accepts the initiation
and learns who sent it, the initiator accepts the response, and the tunnels pair. -/
def Agrees (si sr ei er : Bytes 32) (ts : Bytes 12) (i r : UInt32) : Prop :=
  ∃ resp initiator responder,
    consumeInitiation cr sr (cr.pubkey sr)
      (buildInitiation cr si (cr.pubkey si) (cr.pubkey sr) ts i ei).1 r er =
        .ok (resp, responder, cr.pubkey si) ∧
    (buildInitiation cr si (cr.pubkey si) (cr.pubkey sr) ts i ei).2.consumeResponse cr resp =
        .ok initiator ∧
    Paired initiator responder ∧ initiator.ourIndex = i ∧ responder.ourIndex = r

/-- **The responder accepts an initiation** that was built for it; the result in the words
of the initiator. -/
theorem consumeInitiation_buildInitiation (hopen : cr.Opens) {si sr ei : Bytes 32}
    (hes : cr.Commutes ei sr) (hss : cr.Commutes si sr) (ts : Bytes 12) (i r : UInt32)
    (er : Bytes 32) :
    ∃ (m : Mixed) (mac : Bytes 16),
      (buildInitiation cr si (cr.pubkey si) (cr.pubkey sr) ts i ei).2 = ⟨m.c, m.h, ei, si, i⟩ ∧
      let ee := cr.dh er (cr.pubkey ei)
      let se := cr.dh er (cr.pubkey si)
      let m' := m.second cr (cr.pubkey er) ee se
      consumeInitiation cr sr (cr.pubkey sr)
        (buildInitiation cr si (cr.pubkey si) (cr.pubkey sr) ts i ei).1 r er =
        .ok (put (layoutResponse r i (cr.pubkey er)
            (sealMsg cr (m.pskKey cr (cr.pubkey er) ee se) 0 [] m'.h)) 60 mac,
          ⟨(kdf2 cr m'.c []).2, (kdf2 cr m'.c []).1, i, r, 0⟩, cr.pubkey si) := by
  obtain ⟨m0, hm0⟩ : ∃ m0, m0 = Mixed.first cr (cr.pubkey sr) (cr.pubkey ei) := ⟨_, rfl⟩
  obtain ⟨encStatic, hstatic⟩ : ∃ encStatic,
      encStatic = m0.payload cr (cr.dh ei (cr.pubkey sr)) (cr.pubkey si) := ⟨_, rfl⟩
  obtain ⟨m1, hm1⟩ : ∃ m1, m1 = m0.after cr (cr.dh ei (cr.pubkey sr)) encStatic := ⟨_, rfl⟩
  obtain ⟨encTs, hts⟩ : ∃ encTs, encTs = m1.payload cr (cr.dh si (cr.pubkey sr)) ts := ⟨_, rfl⟩
  obtain ⟨m2, hm2⟩ : ∃ m2, m2 = m1.after cr (cr.dh si (cr.pubkey sr)) encTs := ⟨_, rfl⟩
  obtain ⟨mac, hbuild⟩ : ∃ mac : Bytes 16,
      buildInitiation cr si (cr.pubkey si) (cr.pubkey sr) ts i ei =
        (put (layoutInitiation i (cr.pubkey ei) encStatic encTs) 116 mac,
          ⟨m2.c, m2.h, ei, si, i⟩) := by
    rw [hm2, hts, hm1, hstatic, hm0]
    exact ⟨_, rfl⟩
  have hstaticLen : encStatic.length = 48 := by
    rw [hstatic, Mixed.payload, length_sealMsg, (cr.pubkey si).2]
  have htsLen : encTs.length = 28 := by
    rw [hts, Mixed.payload, length_sealMsg, ts.2]
  obtain ⟨hlen, htype, hidx, heph, hfStatic, hfTs⟩ :=
    initiation_fields i (cr.pubkey ei).2 hstaticLen htsLen mac
  -- the responder comes by the same secrets
  have hopenStatic : openMsg cr (kdf2Key cr m0.c (cr.dh sr (cr.pubkey ei))) 0 encStatic m0.h =
      some (cr.pubkey si).1 := by
    rw [← hes, hstatic]
    exact openMsg_sealMsg cr hopen _ _ _ _
  have hopenTs : openMsg cr (kdf2Key cr (m0.after cr (cr.dh sr (cr.pubkey ei)) encStatic).c
      (cr.dh sr (cr.pubkey si))) 0 encTs
      (m0.after cr (cr.dh sr (cr.pubkey ei)) encStatic).h = some ts.1 := by
    rw [← hes, ← hss, ← hm1, hts]
    exact openMsg_sealMsg cr hopen _ _ _ _
  rw [hm0] at hopenStatic hopenTs
  obtain ⟨mac', hconsume⟩ := consumeInitiation_eq r er hlen htype hidx heph hfStatic hfTs
    hopenStatic hopenTs
  rw [← hes, ← hss, ← hm0, ← hm1, ← hm2] at hconsume
  rw [hbuild]
  exact ⟨m2, mac', rfl, hconsume⟩

/-- **The handshake agrees**, for every static and ephemeral keys, indices and
timestamp, when Diffie–Hellman commutes for these keys and decryption undoes
encryption. -/
theorem handshake_agrees (hopen : cr.Opens) {si sr ei er : Bytes 32} (hes : cr.Commutes ei sr)
    (hss : cr.Commutes si sr) (hee : cr.Commutes ei er) (hse : cr.Commutes si er) (ts : Bytes 12)
    (i r : UInt32) : Agrees cr si sr ei er ts i r := by
  obtain ⟨m, mac, hbuild, hconsume⟩ :=
    consumeInitiation_buildInitiation cr hopen hes hss ts i r er
  dsimp only at hconsume
  rw [← hee, ← hse] at hconsume
  -- the initiator
  have hemptyLen : (sealMsg cr (m.pskKey cr (cr.pubkey er) (cr.dh ei (cr.pubkey er))
      (cr.dh si (cr.pubkey er))) 0 [] (m.second cr (cr.pubkey er) (cr.dh ei (cr.pubkey er))
      (cr.dh si (cr.pubkey er))).h).length = 16 := length_sealMsg cr _ _ _ _
  obtain ⟨hlen, htype, hidx, hour, heph, hempty⟩ :=
    response_fields r i (cr.pubkey er).2 hemptyLen mac
  have hresponse := consumeResponse_eq ⟨m.c, m.h, ei, si, i⟩ hlen htype
    hidx hour heph hempty (openMsg_sealMsg cr hopen _ _ _ _)
  rw [Agrees, hbuild]
  exact ⟨_, _, _, hconsume, hresponse, ⟨rfl, rfl, rfl, rfl⟩, rfl, rfl⟩

/-- A key of the examples. -/
def keyOf (b : UInt8) : Bytes 32 := Bytes.ofList 32 (List.replicate 32 b)

/-- The two sides of the example agree on their shared key. -/
theorem standard_commutes : Crypto.standard.Commutes (keyOf 1) (keyOf 2) := by
  unfold Crypto.Commutes
  decide +kernel

/-- Two nodes with X25519, ChaCha20-Poly1305 and BLAKE2s. -/
theorem handshake_agrees_standard :
    Agrees Crypto.standard (keyOf 1) (keyOf 2) (keyOf 3) (keyOf 4)
      (Bytes.ofList 12 [0x40, 0, 0, 0, 0x66, 1, 2, 3, 4, 5, 6, 7]) 7 9 := by
  apply handshake_agrees Crypto.standard Crypto.standard_opens
  · unfold Crypto.Commutes
    decide +kernel
  · exact standard_commutes
  · unfold Crypto.Commutes
    decide +kernel
  · unfold Crypto.Commutes
    decide +kernel

end Wg
