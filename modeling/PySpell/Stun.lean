/-
# Binding responses

`parse_response` of `stun.rs`: the address of the device as the internet sees it.  A
response is a header of 20 bytes and attributes, each padded to a multiple of four bytes;
the address stands in an `XOR-MAPPED-ADDRESS`, or in a `MAPPED-ADDRESS` of the old form.

The loop over the attributes reads inside the buffer and ends, on every buffer
(`returns_parseResponse`).  On a well-formed response it returns the first IPv4 address of
either kind (`parseResponse_encode`), which is the preferred one exactly if no other
address of the old form stands in front of it (`parseResponse_prefers_iff`).
-/
import PySpell.Disco
import PySpell.TcpSession
import PySpell.Lib.Checked
import PySpell.Lib.Outcome

open Tcp Bytes

namespace Stun

def bindingResponse : ℕ := 0x0101
def attrMappedAddress : ℕ := 0x0001
def attrXorMappedAddress : ℕ := 0x0020

/-- `SocketAddrV4`. -/
structure SocketAddrV4 where
  ip : UInt32
  port : UInt16
  deriving DecidableEq, Repr

/-- The errors of `parse_response`. -/
inductive StunError where
  | tooShort (len : ℕ)
  | notBindingResponse (msgType : ℕ)
  | badCookie (cookie : ℕ)
  | txidMismatch
  | noMappedAddress
  deriving DecidableEq, Repr

/-- `{n:0w$x}`. -/
def hexPadded (w n : ℕ) : String := String.ofList ((Nat.toDigits 16 n).leftpad w '0')

/-- The text of an error. -/
def StunError.text : StunError → String
  | .tooShort len => s!"STUN response too short ({len} bytes)"
  | .notBindingResponse t => "not a STUN Binding Response (type 0x" ++ hexPadded 4 t ++ ")"
  | .badCookie c => "bad STUN magic cookie 0x" ++ hexPadded 8 c
  | .txidMismatch => "STUN transaction id mismatch"
  | .noMappedAddress => "no MAPPED-ADDRESS attribute in STUN response"

/-! ## Reading -/

/-- `u16::from_be_bytes([buf[i], buf[i + 1]])`. -/
def u16Of (buf : List UInt8) (i : ℕ) : Outcome StunError ℕ := do
  let a ← .unwrap buf[i]?
  let b ← .unwrap buf[i + 1]?
  .ok (a.toNat * 256 + b.toNat)

/-- `u32::from_be_bytes([buf[i], .., buf[i + 3]])`. -/
def u32Of (buf : List UInt8) (i : ℕ) : Outcome StunError ℕ := do
  let hi ← u16Of buf i
  let lo ← u16Of buf (i + 2)
  .ok (hi * 65536 + lo)

/-- `val.len() < 8 || val[1] != 0x01`: no IPv4 address. -/
def notIpv4 (val : List UInt8) : Outcome StunError Bool :=
  if val.length < 8 then .ok true
  else do
    let family ← .unwrap val[1]?
    .ok (family ≠ 0x01)

/-- `parse_xor_mapped`. -/
def parseXorMapped (val : List UInt8) : Outcome StunError (Option SocketAddrV4) := do
  if ← notIpv4 val then .ok none
  else
    let xPort ← u16Of val 2
    let port := UInt16.ofNat xPort ^^^ (magicCookie >>> 16).toUInt16
    let xAddr ← u32Of val 4
    .ok (some ⟨UInt32.ofNat xAddr ^^^ magicCookie, port⟩)

/-- `parse_mapped`. -/
def parseMapped (val : List UInt8) : Outcome StunError (Option SocketAddrV4) := do
  if ← notIpv4 val then .ok none
  else
    let port ← u16Of val 2
    let addr ← u32Of val 4
    .ok (some ⟨UInt32.ofNat addr, UInt16.ofNat port⟩)

/-- What an attribute says about our address. -/
def attrAddress (atype : ℕ) (val : List UInt8) : Outcome StunError (Option SocketAddrV4) :=
  if atype = attrXorMappedAddress then parseXorMapped val
  else if atype = attrMappedAddress then parseMapped val
  else .ok none

/-- The loop over the attributes from `i` on, with a bound on the number of rounds. -/
def attrLoop (buf : List UInt8) (stop : ℕ) : ℕ → ℕ → Outcome StunError SocketAddrV4
  | 0, _ => .outOfFuel
  | fuel + 1, i =>
    if i + 4 ≤ stop then do
      let atype ← u16Of buf i
      let alen ← u16Of buf (i + 2)
      let valStart := i + 4
      let valEnd := valStart + alen
      if stop < valEnd then .err .noMappedAddress
      else
        let val ← .unwrap (Checked.slice buf valStart valEnd)
        match ← attrAddress atype val with
        | some addr => .ok addr
        -- attributes are padded to a multiple of four bytes
        | none => attrLoop buf stop fuel (valEnd + (4 - alen % 4) % 4)
    else .err .noMappedAddress

/-- `parse_response`. -/
def parseResponse (buf : List UInt8) (txid : Bytes 12) : Outcome StunError SocketAddrV4 :=
  if buf.length < 20 then .err (.tooShort buf.length)
  else do
    let msgType ← u16Of buf 0
    if msgType ≠ bindingResponse then .err (.notBindingResponse msgType)
    else
      let cookie ← u32Of buf 4
      if cookie ≠ magicCookie.toNat then .err (.badCookie cookie)
      else
        let id ← .unwrap (Checked.slice buf 8 20)
        if id ≠ txid.1 then .err .txidMismatch
        else
          let msgLen ← u16Of buf 2
          let stop := min (20 + msgLen) buf.length
          attrLoop buf stop (buf.length + 1) 20

/-! ## Every buffer -/

theorem u16Of_eq {buf : List UInt8} {i : ℕ} (h : i + 2 ≤ buf.length) :
    u16Of buf i = .ok (u16At buf i) := by
  have h0 : buf[i]? = some (buf.getD i 0) := by
    rw [List.getD_eq_getElem?_getD, List.getElem?_eq_getElem (by omega), Option.getD_some]
  have h1 : buf[i + 1]? = some (buf.getD (i + 1) 0) := by
    rw [List.getD_eq_getElem?_getD, List.getElem?_eq_getElem (by omega), Option.getD_some]
  rw [u16Of, h0, h1]
  rfl

theorem u32Of_eq {buf : List UInt8} {i : ℕ} (h : i + 4 ≤ buf.length) :
    u32Of buf i = .ok (u16At buf i * 65536 + u16At buf (i + 2)) := by
  rw [u32Of, u16Of_eq (by omega), u16Of_eq (by omega)]
  rfl

theorem slice_eq_ok {buf : List UInt8} {a b : ℕ} (hab : a ≤ b) (hb : b ≤ buf.length) :
    (Outcome.unwrap (Checked.slice buf a b) : Outcome StunError (List UInt8)) =
      .ok (slice buf a (b - a)) := by
  rw [Checked.slice, if_pos ⟨hab, hb⟩]
  rfl

/-- The IPv4 address of a value: after a reserved byte and the family come the port and
the address, both under a mask. -/
def ipv4 (mask : UInt32) (val : List UInt8) : Option SocketAddrV4 :=
  if 8 ≤ val.length ∧ val.getD 1 0 = 0x01 then
    some ⟨u32At val 4 ^^^ mask, UInt16.ofNat (u16At val 2) ^^^ (mask >>> 16).toUInt16⟩
  else none

theorem notIpv4_eq (val : List UInt8) :
    notIpv4 val = .ok (decide ¬ (8 ≤ val.length ∧ val.getD 1 0 = 0x01)) := by
  unfold notIpv4
  split_ifs with hlen
  · rw [decide_eq_true (by omega)]
  · have h1 : val[1]? = some (val.getD 1 0) := by
      rw [List.getD_eq_getElem?_getD, List.getElem?_eq_getElem (by omega), Option.getD_some]
    rw [h1]
    simp only [Outcome.unwrap_some, Outcome.ok_bind, Outcome.ok.injEq, decide_eq_decide]
    exact ⟨fun hne h => hne h.2, fun hne h => hne ⟨by omega, h⟩⟩

theorem parseXorMapped_eq (val : List UInt8) :
    parseXorMapped val = .ok (ipv4 magicCookie val) := by
  unfold parseXorMapped ipv4
  rw [notIpv4_eq, Outcome.ok_bind]
  by_cases h : 8 ≤ val.length ∧ val.getD 1 0 = 0x01
  · rw [if_pos h, if_neg (by simpa using h), u16Of_eq (by omega), Outcome.ok_bind,
      u32Of_eq (by omega)]
    rfl
  · rw [if_neg h, if_pos (decide_eq_true h)]

theorem parseMapped_eq (val : List UInt8) : parseMapped val = .ok (ipv4 0 val) := by
  unfold parseMapped ipv4
  rw [notIpv4_eq, Outcome.ok_bind]
  by_cases h : 8 ≤ val.length ∧ val.getD 1 0 = 0x01
  · rw [if_pos h, if_neg (by simpa using h), u16Of_eq (by omega), Outcome.ok_bind,
      u32Of_eq (by omega), Outcome.ok_bind, UInt32.xor_zero,
      show ((0 : UInt32) >>> 16).toUInt16 = 0 from rfl, UInt16.xor_zero]
    rfl
  · rw [if_neg h, if_pos (decide_eq_true h)]

/-- The address in an attribute of either kind. -/
def addressOf (atype : ℕ) (val : List UInt8) : Option SocketAddrV4 :=
  if atype = attrXorMappedAddress then ipv4 magicCookie val
  else if atype = attrMappedAddress then ipv4 0 val
  else none

theorem attrAddress_eq (atype : ℕ) (val : List UInt8) :
    attrAddress atype val = .ok (addressOf atype val) := by
  unfold attrAddress addressOf
  split_ifs
  · exact parseXorMapped_eq val
  · exact parseMapped_eq val
  · rfl

/-- A round of the loop: the attribute at `i` decides, or the loop goes on behind it. -/
theorem attrLoop_step {buf : List UInt8} {stop i fuel : ℕ} (hstop : stop ≤ buf.length)
    (hi : i + 4 + u16At buf (i + 2) ≤ stop) :
    attrLoop buf stop (fuel + 1) i =
      match addressOf (u16At buf i) (slice buf (i + 4) (u16At buf (i + 2))) with
      | some addr => .ok addr
      | none => attrLoop buf stop fuel
          (i + 4 + u16At buf (i + 2) + (4 - u16At buf (i + 2) % 4) % 4) := by
  rw [attrLoop, if_pos (by omega), u16Of_eq (by omega), Outcome.ok_bind, u16Of_eq (by omega),
    Outcome.ok_bind]
  dsimp only
  rw [if_neg (by omega), slice_eq_ok (by omega) (by omega), Outcome.ok_bind, attrAddress_eq,
    Outcome.ok_bind, Nat.add_sub_cancel_left]

/-- An attribute that ends behind the message ends the loop. -/
theorem attrLoop_cut {buf : List UInt8} {stop i fuel : ℕ} (hstop : stop ≤ buf.length)
    (hi : stop < i + 4 + u16At buf (i + 2)) :
    attrLoop buf stop (fuel + 1) i = .err .noMappedAddress := by
  rw [attrLoop]
  split_ifs with hhead
  · rw [u16Of_eq (by omega), Outcome.ok_bind, u16Of_eq (by omega), Outcome.ok_bind]
    exact if_pos hi
  · rfl

/-- Each round moves four bytes on at least. -/
theorem returns_attrLoop {buf : List UInt8} {stop : ℕ} (hstop : stop ≤ buf.length) :
    ∀ {fuel i : ℕ}, stop ≤ i + fuel → (attrLoop buf stop (fuel + 1) i).Returns := by
  intro fuel
  induction fuel with
  | zero =>
    intro i hfuel
    rw [attrLoop_cut hstop (by omega)]
    trivial
  | succ fuel ih =>
    intro i hfuel
    by_cases hval : i + 4 + u16At buf (i + 2) ≤ stop
    · rw [attrLoop_step hstop hval]
      split
      · trivial
      · exact ih (by omega)
    · rw [attrLoop_cut hstop (by omega)]
      trivial

/-- `parse_response`, with its reads. -/
theorem parseResponse_eq {buf : List UInt8} (hlen : 20 ≤ buf.length) (txid : Bytes 12) :
    parseResponse buf txid =
      if u16At buf 0 ≠ bindingResponse then .err (.notBindingResponse (u16At buf 0))
      else if u16At buf 4 * 65536 + u16At buf 6 ≠ magicCookie.toNat then
        .err (.badCookie (u16At buf 4 * 65536 + u16At buf 6))
      else if slice buf 8 12 ≠ txid.1 then .err .txidMismatch
      else attrLoop buf (min (20 + u16At buf 2) buf.length) (buf.length + 1) 20 := by
  rw [parseResponse, if_neg (by omega), u16Of_eq (by omega), Outcome.ok_bind, u32Of_eq (by omega),
    Outcome.ok_bind, slice_eq_ok (by omega) (by omega), Outcome.ok_bind, u16Of_eq (by omega),
    Outcome.ok_bind]

/-- **On every buffer** the loop ends and reads inside the buffer. -/
theorem returns_parseResponse (buf : List UInt8) (txid : Bytes 12) :
    (parseResponse buf txid).Returns := by
  by_cases hlen : buf.length < 20
  · rw [parseResponse, if_pos hlen]
    trivial
  · rw [parseResponse_eq (by omega)]
    split_ifs
    · trivial
    · trivial
    · trivial
    · exact returns_attrLoop (min_le_right _ _) (by omega)

/-! ## Responses -/

/-- An attribute, with the padding behind it. -/
structure Attr where
  type : UInt16
  value : List UInt8
  padding : List UInt8
  fits : value.length < 2 ^ 16
  padded : padding.length = (4 - value.length % 4) % 4

namespace Attr

def encode (a : Attr) : List UInt8 :=
  be16 a.type.toNat ++ be16 a.value.length ++ a.value ++ a.padding

/-- The address of an IPv4 `XOR-MAPPED-ADDRESS`. -/
def xorMapped (a : Attr) : Option SocketAddrV4 :=
  if a.type.toNat = attrXorMappedAddress then ipv4 magicCookie a.value else none

/-- The address of an IPv4 `MAPPED-ADDRESS`. -/
def mapped (a : Attr) : Option SocketAddrV4 :=
  if a.type.toNat = attrMappedAddress then ipv4 0 a.value else none

theorem length_encode (a : Attr) :
    a.encode.length = 4 + a.value.length + (4 - a.value.length % 4) % 4 := by
  simp only [encode, be16, List.length_append, List.length_cons, List.length_nil, a.padded]

theorem addressOf_eq (a : Attr) :
    addressOf a.type.toNat a.value = a.xorMapped.or a.mapped := by
  unfold addressOf xorMapped mapped
  split_ifs with hxor hmapped
  · rw [hxor] at hmapped
    cases hmapped
  · exact Option.or_none.symm
  · exact Option.none_or.symm
  · rfl

end Attr

/-- The value that carries an address under a mask. -/
def addrValue (mask : UInt32) (a : SocketAddrV4) : List UInt8 :=
  ([0, 0x01] : List UInt8) ++ be16 (a.port ^^^ (mask >>> 16).toUInt16).toNat ++ be32 (a.ip ^^^ mask)

/-- **An address is read back** under its mask. -/
theorem ipv4_addrValue (mask : UInt32) (a : SocketAddrV4) :
    ipv4 mask (addrValue mask a) = some a := by
  have hport : u16At (addrValue mask a) 2 = (a.port ^^^ (mask >>> 16).toUInt16).toNat :=
    u16_of_be16 (UInt16.toNat_lt _)
  have hip : u32At (addrValue mask a) 4 = a.ip ^^^ mask := u32_of_be32 _
  have hipv4 : 8 ≤ (addrValue mask a).length ∧ (addrValue mask a).getD 1 0 = 0x01 :=
    ⟨Nat.le_refl 8, rfl⟩
  rw [ipv4, if_pos hipv4, hport, hip, UInt16.ofNat_toNat, UInt16.xor_assoc,
    UInt32.xor_assoc, UInt16.xor_self, UInt32.xor_self, UInt16.xor_zero, UInt32.xor_zero]

/-! ### A message -/

/-- A binding response: its attributes fit into the length of the header. -/
structure Response where
  txid : Bytes 12
  attrs : List Attr
  fits : (attrs.flatMap Attr.encode).length < 2 ^ 16

/-- The bytes of a response. -/
def Response.encode (r : Response) : List UInt8 :=
  be16 bindingResponse ++ be16 (r.attrs.flatMap Attr.encode).length ++ be32 magicCookie ++
    r.txid.1 ++ r.attrs.flatMap Attr.encode

/-- The address that was found, or the error that there is none. -/
def found : Option SocketAddrV4 → Outcome StunError SocketAddrV4
  | some addr => .ok addr
  | none => .err .noMappedAddress

/-- The loop at an attribute that lies in the message. -/
theorem attrLoop_encode {buf pre post : List UInt8} {a : Attr} {stop fuel : ℕ}
    (hbuf : buf = pre ++ (a.encode ++ post)) (hstop : stop ≤ buf.length)
    (hfits : (pre ++ a.encode).length ≤ stop) :
    attrLoop buf stop (fuel + 1) pre.length =
      match a.xorMapped.or a.mapped with
      | some addr => .ok addr
      | none => attrLoop buf stop fuel (pre ++ a.encode).length := by
  have htype : u16At buf pre.length = a.type.toNat := by
    rw [hbuf, ← Nat.add_zero pre.length, u16At_append]
    exact u16_of_be16 a.type.toNat_lt
  have hlen : u16At buf (pre.length + 2) = a.value.length := by
    rw [hbuf, u16At_append]
    exact u16_of_be16 a.fits
  have hval : slice buf (pre.length + 4) a.value.length = a.value := by
    rw [hbuf, slice_append]
    have hhead : a.encode ++ post =
        (be16 a.type.toNat ++ be16 a.value.length) ++ (a.value ++ (a.padding ++ post)) := by
      simp only [Attr.encode, List.append_assoc]
    rw [hhead]
    exact List.take_left
  rw [List.length_append, a.length_encode] at hfits
  have hnext : pre.length + 4 + a.value.length + (4 - a.value.length % 4) % 4 =
      (pre ++ a.encode).length := by
    rw [List.length_append, a.length_encode]
    omega
  rw [attrLoop_step hstop (by omega), htype, hlen, hval, a.addressOf_eq, hnext]

/-- The loop over all attributes: the first address of either kind. -/
theorem attrLoop_flatMap {buf tail : List UInt8} {stop : ℕ} {attrs : List Attr} :
    ∀ {pre : List UInt8} {fuel : ℕ}, buf = pre ++ (attrs.flatMap Attr.encode ++ tail) →
      stop = (pre ++ attrs.flatMap Attr.encode).length → attrs.length < fuel →
      attrLoop buf stop fuel pre.length =
        found (attrs.findSome? fun a => a.xorMapped.or a.mapped) := by
  induction attrs with
  | nil =>
    intro pre fuel hbuf hstop hfuel
    obtain ⟨fuel, rfl⟩ : ∃ n, fuel = n + 1 := ⟨fuel - 1, by omega⟩
    rw [List.flatMap_nil, List.append_nil] at hstop
    rw [attrLoop, if_neg (by omega)]
    rfl
  | cons a attrs ih =>
    intro pre fuel hbuf hstop hfuel
    obtain ⟨fuel, rfl⟩ : ∃ n, fuel = n + 1 := ⟨fuel - 1, by omega⟩
    rw [List.flatMap_cons] at hbuf hstop
    rw [List.append_assoc] at hbuf
    have hle : stop ≤ buf.length := by
      rw [hstop, hbuf]
      simp only [List.length_append]
      omega
    have hfits : (pre ++ a.encode).length ≤ stop := by
      rw [hstop]
      simp only [List.length_append]
      omega
    rw [attrLoop_encode hbuf hle hfits, List.findSome?_cons]
    cases a.xorMapped.or a.mapped with
    | some addr => rfl
    | none =>
      refine ih ?_ ?_ (Nat.lt_of_succ_lt_succ hfuel)
      · rw [hbuf, List.append_assoc]
      · rw [hstop, List.append_assoc]

theorem length_le_flatMap_encode (attrs : List Attr) :
    attrs.length ≤ (attrs.flatMap Attr.encode).length := by
  induction attrs with
  | nil => exact le_rfl
  | cons a attrs ih =>
    rw [List.flatMap_cons, List.length_append, List.length_cons, a.length_encode]
    omega

/-- **The first address of either kind** is what a response gives, whatever stands behind
it in the buffer. -/
theorem parseResponse_encode (r : Response) (tail : List UInt8) :
    parseResponse (r.encode ++ tail) r.txid =
      found (r.attrs.findSome? fun a => a.xorMapped.or a.mapped) := by
  have hfits := r.fits
  have hattrs := length_le_flatMap_encode r.attrs
  have hid := r.txid.2
  obtain ⟨head, hhead⟩ : ∃ head, head = be16 bindingResponse ++
      be16 (r.attrs.flatMap Attr.encode).length ++ be32 magicCookie ++ r.txid.1 := ⟨_, rfl⟩
  have hlen : head.length = 20 := by
    rw [hhead]
    simp only [be16, be32, List.length_append, List.length_cons, List.length_nil, hid]
  have hbuf : r.encode ++ tail = head ++ (r.attrs.flatMap Attr.encode ++ tail) := by
    rw [Response.encode, ← hhead, List.append_assoc]
  have htype : u16At (r.encode ++ tail) 0 = bindingResponse := u16_of_be16 (by decide)
  have hcookie : u16At (r.encode ++ tail) 4 * 65536 + u16At (r.encode ++ tail) 6 =
      magicCookie.toNat := by
    have hhi : u16At (r.encode ++ tail) 4 = magicCookie.toNat / 65536 := u16_of_be16 (by decide)
    have hlo : u16At (r.encode ++ tail) 6 = magicCookie.toNat % 65536 := u16_of_be16 (by decide)
    rw [hhi, hlo]
    rfl
  have hmsg : u16At (r.encode ++ tail) 2 = (r.attrs.flatMap Attr.encode).length :=
    u16_of_be16 hfits
  have htxid : slice (r.encode ++ tail) 8 12 = r.txid.1 := by
    rw [hbuf, hhead]
    simp only [List.append_assoc]
    exact List.take_left' hid
  have htotal : (r.encode ++ tail).length =
      20 + ((r.attrs.flatMap Attr.encode).length + tail.length) := by
    rw [hbuf, List.length_append, List.length_append, hlen]
  rw [parseResponse_eq (by omega), htype, if_neg (not_not_intro rfl), hcookie,
    if_neg (not_not_intro rfl), htxid, if_neg (not_not_intro rfl), hmsg, min_eq_left (by omega),
    ← hlen]
  refine attrLoop_flatMap hbuf ?_ (by omega)
  rw [List.length_append, hlen]

/-! ## The preferred address -/

/-- The address of a response: that of the first `XOR-MAPPED-ADDRESS`, and without one
that of the first `MAPPED-ADDRESS`. -/
def preferred (attrs : List Attr) : Option SocketAddrV4 :=
  (attrs.findSome? Attr.xorMapped).or (attrs.findSome? Attr.mapped)

/-- No other address of the old form stands in front of the first `XOR-MAPPED-ADDRESS`. -/
def LegacyAgrees (attrs : List Attr) : Prop :=
  ∀ pre x post addr legacy, attrs = pre ++ x :: post → (∀ a ∈ pre, a.xorMapped = none) →
    x.xorMapped = some addr → pre.findSome? Attr.mapped = some legacy → legacy = addr

theorem found_inj {a b : Option SocketAddrV4} : found a = found b ↔ a = b := by
  constructor
  · intro h
    cases a <;> cases b <;> cases h <;> rfl
  · exact congrArg found

/-- Without an `XOR-MAPPED-ADDRESS` the old form is searched for. -/
theorem findSome_of_no_xor {attrs : List Attr} (h : ∀ a ∈ attrs, a.xorMapped = none) :
    (attrs.findSome? fun a => a.xorMapped.or a.mapped) = attrs.findSome? Attr.mapped := by
  induction attrs with
  | nil => rfl
  | cons a attrs ih =>
    rw [List.findSome?_cons, List.findSome?_cons, h a List.mem_cons_self, Option.none_or,
      ih fun b hb => h b (List.mem_cons_of_mem a hb)]

/-- What both searches find, when the first `XOR-MAPPED-ADDRESS` is known. -/
theorem findSome_of_split {pre : List Attr} {x : Attr} {addr : SocketAddrV4} (post : List Attr)
    (hpre : ∀ a ∈ pre, a.xorMapped = none) (hx : x.xorMapped = some addr) :
    ((pre ++ x :: post).findSome? fun a => a.xorMapped.or a.mapped) =
        (pre.findSome? Attr.mapped).or (some addr) ∧
      preferred (pre ++ x :: post) = some addr := by
  constructor
  · rw [List.findSome?_append, findSome_of_no_xor hpre, List.findSome?_cons, hx]
    rfl
  · have hnone : pre.findSome? Attr.xorMapped = none := List.findSome?_eq_none_iff.mpr hpre
    rw [preferred, List.findSome?_append, hnone, Option.none_or, List.findSome?_cons, hx]
    rfl

theorem findSome_eq_preferred_iff (attrs : List Attr) :
    (attrs.findSome? fun a => a.xorMapped.or a.mapped) = preferred attrs ↔
      LegacyAgrees attrs := by
  constructor
  · rintro heq pre x post addr legacy rfl hpre hx hlegacy
    obtain ⟨hfirst, hpreferred⟩ := findSome_of_split post hpre hx
    rw [hfirst, hpreferred, hlegacy] at heq
    exact Option.some_inj.mp heq
  · intro hagrees
    cases hxor : attrs.findSome? Attr.xorMapped with
    | none =>
      rw [findSome_of_no_xor (List.findSome?_eq_none_iff.mp hxor), preferred, hxor,
        Option.none_or]
    | some addr =>
      obtain ⟨pre, x, post, rfl, hx, hpre⟩ := List.findSome?_eq_some_iff.mp hxor
      obtain ⟨hfirst, hpreferred⟩ := findSome_of_split post hpre hx
      rw [hfirst, hpreferred]
      cases hlegacy : pre.findSome? Attr.mapped with
      | none => rfl
      | some legacy => exact congrArg some (hagrees pre x post addr legacy rfl hpre hx hlegacy)

/-- **The preferred address** is the one a response gives exactly if no other address of
the old form stands in front of it; and no buffer makes the parser panic or loop. -/
theorem parseResponse_prefers_iff (r : Response) (tail : List UInt8) :
    (parseResponse (r.encode ++ tail) r.txid = found (preferred r.attrs) ↔
      LegacyAgrees r.attrs) ∧
    ∀ (buf : List UInt8) (txid : Bytes 12), (parseResponse buf txid).Returns := by
  constructor
  · rw [parseResponse_encode, found_inj]
    exact findSome_eq_preferred_iff r.attrs
  · exact returns_parseResponse

/-- `192.168.1.2:1000` in the old form, and then `203.0.113.7:4096`. -/
def legacyFirst : Response where
  txid := Bytes.zeros 12
  attrs := [⟨0x0001, addrValue 0 ⟨0xc0a80102, 1000⟩, [], by decide, rfl⟩,
    ⟨0x0020, addrValue magicCookie ⟨0xcb007107, 4096⟩, [], by decide, rfl⟩]
  fits := by decide

/-- The response has a preferred address, and the parser returns the other one. -/
theorem parseResponse_takes_legacy :
    preferred legacyFirst.attrs = some ⟨0xcb007107, 4096⟩ ∧
    parseResponse legacyFirst.encode legacyFirst.txid = .ok ⟨0xc0a80102, 1000⟩ ∧
    parseResponse legacyFirst.encode legacyFirst.txid ≠ found (preferred legacyFirst.attrs) := by
  refine ⟨by decide, by decide, by decide⟩

end Stun
