/-
# The handshake header

The first message of the handshake travels in a header, in base64 (`base64_std` of
`transport.rs`), and from a browser in the query of a URL (`url_encode_b64` of the WASM
client).  The characters `+`, `/` and `=` of base64 mean something else in a query, so the
client writes them as percent escapes, and `url_decode` reads those.

A chunk of three bytes is the group of RFC 4648 (`encodeChunk_eq`), so decoding after the
RFC gives the message back (`decode_base64Std`); the escapes are read one character after
the other (`urlDecodeLoop_escape`).
-/
import PySpell.Http
import PySpell.Lib.Base64

namespace HandshakeHeader

open Text

/-! ## Encoding -/

/-- `T`. -/
def table : List Char :=
  "ABCDEFGHIJKLMNOPQRSTUVWXYZabcdefghijklmnopqrstuvwxyz0123456789+/".toList

/-- The body of the loop of `base64_std`. -/
def encodeChunk (chunk : List UInt8) : List Char :=
  let n : UInt32 := (chunk.getD 0 0).toUInt32 <<< 16 ||| (chunk.getD 1 0).toUInt32 <<< 8 |||
    (chunk.getD 2 0).toUInt32
  let sextet (shift : UInt32) : Char := table.getD ((n >>> shift) &&& 0x3f).toNat 'A'
  [sextet 18, sextet 12, if 1 < chunk.length then sextet 6 else '=',
    if 2 < chunk.length then sextet 0 else '=']

/-- `base64_std`. -/
def base64Std (data : List UInt8) : String :=
  String.ofList ((data.toChunks 3).flatMap encodeChunk)

/-- One character in `url_encode_b64`. -/
def escape : Char → List Char
  | '+' => "%2B".toList
  | '/' => "%2F".toList
  | '=' => "%3D".toList
  | c => [c]

/-- `url_encode_b64`. -/
def urlEncodeB64 (s : String) : String := String.ofList (s.toList.flatMap escape)

/-! ## Decoding -/

/-- The closure `hv` of `url_decode`. -/
def hv (c : UInt8) : Option UInt8 :=
  if 48 ≤ c ∧ c ≤ 57 then some (c - 48)
  else if 97 ≤ c ∧ c ≤ 102 then some (c - 97 + 10)
  else if 65 ≤ c ∧ c ≤ 70 then some (c - 65 + 10)
  else none

/-- The loop of `url_decode`, on what is still to be read. -/
def urlDecodeLoop : List UInt8 → List UInt8
  | [] => []
  | c :: bs =>
    if c = 43 then 32 :: urlDecodeLoop bs
    else if c = 37 then
      match bs with
      | h :: l :: rest =>
        match hv h, hv l with
        | some h, some l => (h <<< 4 ||| l) :: urlDecodeLoop rest
        | _, _ => 37 :: urlDecodeLoop (h :: l :: rest)
      | short => 37 :: urlDecodeLoop short
    else c :: urlDecodeLoop bs

/-- `url_decode` of the WASM client. -/
def urlDecode (s : String) : String := fromUtf8Lossy (urlDecodeLoop (utf8 s))

/-! ## Groups -/

/-- Six bits of a number are a digit in base 64. -/
theorem table_sextet (n : UInt32) {shift : UInt32} (h : shift.toNat < 32) :
    table.getD ((n >>> shift) &&& 0x3f).toNat 'A' =
      Base64.digit (n.toNat / 2 ^ shift.toNat % 64) := by
  have hmask : (0x3f : UInt32).toNat = 2 ^ 6 - 1 := rfl
  rw [UInt32.toNat_and, UInt32.toNat_shiftRight, Nat.mod_eq_of_lt h, hmask,
    Nat.and_two_pow_sub_one_eq_mod, Nat.shiftRight_eq_div_pow]
  rfl

/-- The three bytes of a chunk are one number. -/
theorem toNat_group (a b c : UInt8) :
    (a.toUInt32 <<< 16 ||| b.toUInt32 <<< 8 ||| c.toUInt32).toNat =
      a.toNat * 65536 + b.toNat * 256 + c.toNat := by
  have ha := a.toNat_lt
  have hb := b.toNat_lt
  have hc := c.toNat_lt
  have h16 : (16 : UInt32).toNat % 32 = 16 := rfl
  have h8 : (8 : UInt32).toNat % 32 = 8 := rfl
  rw [UInt32.toNat_or, UInt32.toNat_or, UInt32.toNat_shiftLeft, UInt32.toNat_shiftLeft, h16, h8,
    UInt8.toNat_toUInt32, UInt8.toNat_toUInt32, UInt8.toNat_toUInt32, Nat.shiftLeft_eq,
    Nat.shiftLeft_eq, Nat.mod_eq_of_lt (by omega), Nat.mod_eq_of_lt (by omega), Nat.or_assoc]
  -- the bytes do not overlap
  have hlow : b.toNat * 2 ^ 8 ||| c.toNat = 2 ^ 8 * b.toNat + c.toNat := by
    rw [Nat.mul_comm, Nat.two_pow_add_eq_or_of_lt hc]
  have hhigh : a.toNat * 2 ^ 16 ||| (2 ^ 8 * b.toNat + c.toNat) =
      2 ^ 16 * a.toNat + (2 ^ 8 * b.toNat + c.toNat) := by
    rw [Nat.mul_comm]
    exact (Nat.two_pow_add_eq_or_of_lt (by omega) a.toNat).symm
  rw [hlow, hhigh]
  omega

/-- The four characters of a chunk, as digits of its number. -/
theorem encodeChunk_digits (chunk : List UInt8) {n : ℕ}
    (hn : n = (chunk.getD 0 0).toNat * 65536 + (chunk.getD 1 0).toNat * 256 +
      (chunk.getD 2 0).toNat) :
    encodeChunk chunk = [Base64.digit (n / 2 ^ 18 % 64), Base64.digit (n / 2 ^ 12 % 64),
      if 1 < chunk.length then Base64.digit (n / 2 ^ 6 % 64) else '=',
      if 2 < chunk.length then Base64.digit (n / 2 ^ 0 % 64) else '='] := by
  rw [← toNat_group] at hn
  rw [hn, encodeChunk]
  dsimp only
  rw [table_sextet _ (show (18 : UInt32).toNat < 32 by decide),
    table_sextet _ (show (12 : UInt32).toNat < 32 by decide),
    table_sextet _ (show (6 : UInt32).toNat < 32 by decide),
    table_sextet _ (show (0 : UInt32).toNat < 32 by decide)]
  rfl

/-- **A chunk is the group of RFC 4648**, with its padding. -/
theorem encodeChunk_eq {chunk : List UInt8} (hne : chunk ≠ []) (h : chunk.length ≤ 3) :
    encodeChunk chunk = Base64.padded chunk := by
  have hzero : (0 : UInt8).toNat = 0 := rfl
  -- the number of the bytes, shifted up by those that are missing
  match chunk, hne, h with
  | [a], _, _ =>
    obtain ⟨n, hn⟩ : ∃ n, n = Bytes.toNatBe [a] := ⟨_, rfl⟩
    have hbe : n = a.toNat + 256 * 0 := hn
    have hpadded : Base64.padded [a] = [Base64.digit (n * 16 / 64 % 64),
        Base64.digit (n * 16 % 64), '=', '='] := by
      rw [hn]
      rfl
    have h18 : n * 65536 / 2 ^ 18 % 64 = n * 16 / 64 % 64 := by omega
    have h12 : n * 65536 / 2 ^ 12 % 64 = n * 16 % 64 := by omega
    rw [encodeChunk_digits [a] (n := n * 65536) (by simp; omega), hpadded, h18, h12]
    rfl
  | [a, b], _, _ =>
    obtain ⟨n, hn⟩ : ∃ n, n = Bytes.toNatBe [a, b] := ⟨_, rfl⟩
    have hbe : n = b.toNat + 256 * (a.toNat + 256 * 0) := hn
    have hpadded : Base64.padded [a, b] = [Base64.digit (n * 4 / 64 / 64 % 64),
        Base64.digit (n * 4 / 64 % 64), Base64.digit (n * 4 % 64), '='] := by
      rw [hn]
      rfl
    have h18 : n * 256 / 2 ^ 18 % 64 = n * 4 / 64 / 64 % 64 := by omega
    have h12 : n * 256 / 2 ^ 12 % 64 = n * 4 / 64 % 64 := by omega
    have h6 : n * 256 / 2 ^ 6 % 64 = n * 4 % 64 := by omega
    rw [encodeChunk_digits [a, b] (n := n * 256) (by simp; omega), hpadded, h18, h12, h6]
    rfl
  | [a, b, c], _, _ =>
    obtain ⟨n, hn⟩ : ∃ n, n = Bytes.toNatBe [a, b, c] := ⟨_, rfl⟩
    have hbe : n = c.toNat + 256 * (b.toNat + 256 * (a.toNat + 256 * 0)) := hn
    have hpadded : Base64.padded [a, b, c] = [Base64.digit (n / 64 / 64 / 64 % 64),
        Base64.digit (n / 64 / 64 % 64), Base64.digit (n / 64 % 64), Base64.digit (n % 64)] := by
      rw [hn, Base64.padded, Base64.groupText]
      simp only [List.length_cons, List.length_nil, Nat.sub_self, pow_zero, Nat.mul_one]
      rfl
    have h18 : n / 2 ^ 18 % 64 = n / 64 / 64 / 64 % 64 := by omega
    have h12 : n / 2 ^ 12 % 64 = n / 64 / 64 % 64 := by omega
    have h0 : n / 2 ^ 0 % 64 = n % 64 := by omega
    rw [encodeChunk_digits [a, b, c] (n := n) (by simp; omega), hpadded, h18, h12, h0]
    rfl

/-- **Round trip of base64**: decoding after RFC 4648 gives the message. -/
theorem decode_base64Std (data : List UInt8) :
    Base64.decode (base64Std data).toList = some data := by
  rw [base64Std, String.toList_ofList]
  induction data using Bytes.chunk_induction (n := 3) (by decide) with
  | nil => rfl
  | last c hne hlen =>
    rw [Bytes.toChunks_of_length_le hne hlen, List.flatMap_singleton, encodeChunk_eq hne hlen]
    exact Base64.decode_padded hne hlen
  | append c xs hlen ih =>
    have hne : c ≠ [] := List.ne_nil_of_length_pos (by omega)
    rw [Bytes.toChunks_append (by decide) hlen, List.flatMap_cons, encodeChunk_eq hne hlen.le]
    exact Base64.decode_append hlen ih

/-! ## Escapes -/

/-- What is true of the alphabet and of the padding is true of a header. -/
theorem forall_mem_base64Std {p : Char → Prop} (hp : ∀ n < 64, p (Base64.digit n)) (hpad : p '=')
    (data : List UInt8) : ∀ c ∈ (base64Std data).toList, p c := by
  rw [base64Std, String.toList_ofList]
  induction data using Bytes.chunk_induction (n := 3) (by decide) with
  | nil => exact fun _ hc => absurd hc List.not_mem_nil
  | last c hne hlen =>
    rw [Bytes.toChunks_of_length_le hne hlen, List.flatMap_singleton, encodeChunk_eq hne hlen]
    exact Base64.forall_mem_padded hp hpad c
  | append c xs hlen ih =>
    have hne : c ≠ [] := List.ne_nil_of_length_pos (by omega)
    rw [Bytes.toChunks_append (by decide) hlen, List.flatMap_cons, encodeChunk_eq hne hlen.le]
    intro d hd
    rcases List.mem_append.mp hd with hd | hd
    · exact Base64.forall_mem_padded hp hpad c d hd
    · exact ih d hd

/-- A byte that is no `+` and no `%` is copied. -/
theorem urlDecodeLoop_cons {b : UInt8} (h : b ≠ 43 ∧ b ≠ 37) (bs : List UInt8) :
    urlDecodeLoop (b :: bs) = b :: urlDecodeLoop bs := by
  rw [urlDecodeLoop.eq_def]
  dsimp only
  rw [if_neg h.1, if_neg h.2]

theorem urlDecodeLoop_append {bs : List UInt8} (h : ∀ b ∈ bs, b ≠ 43 ∧ b ≠ 37)
    (rest : List UInt8) : urlDecodeLoop (bs ++ rest) = bs ++ urlDecodeLoop rest := by
  induction bs with
  | nil => rfl
  | cons b bs ih =>
    rw [List.cons_append, urlDecodeLoop_cons (h b List.mem_cons_self),
      ih fun c hc => h c (List.mem_cons_of_mem b hc)]
    rfl

/-- The bytes of another character are none of an ASCII character. -/
theorem ne_of_mem_bytes {c d : Char} {b x : UInt8} (hne : c ≠ d) (hx : x.toNat < 0x80)
    (hd : Char.ofNat x.toNat = d) (hb : b ∈ bytes [c]) : b ≠ x := by
  rintro rfl
  have hmem := mem_of_ascii_mem_utf8 (s := String.ofList [c]) hx (by rwa [utf8_ofList])
  rw [String.toList_ofList, List.mem_singleton, hd] at hmem
  exact hne hmem.symm

/-- **One character is read back**, whatever follows it. -/
theorem urlDecodeLoop_escape {c : Char} (h : c ≠ '%') (rest : List UInt8) :
    urlDecodeLoop (bytes (escape c) ++ rest) = bytes [c] ++ urlDecodeLoop rest := by
  unfold escape
  split
  · rfl
  · rfl
  · rfl
  · next hplus _ _ =>
    apply urlDecodeLoop_append
    intro b hb
    exact ⟨ne_of_mem_bytes hplus (by decide) rfl hb, ne_of_mem_bytes h (by decide) rfl hb⟩

/-- What was escaped is read back, if it has no `%`. -/
theorem urlDecode_urlEncodeB64 {s : String} (h : '%' ∉ s.toList) :
    urlDecode (urlEncodeB64 s) = s := by
  have hloop : ∀ cs : List Char, '%' ∉ cs →
      urlDecodeLoop (bytes (cs.flatMap escape)) = bytes cs := by
    intro cs hcs
    induction cs with
    | nil => rfl
    | cons c cs ih =>
      rw [List.mem_cons, not_or] at hcs
      rw [List.flatMap_cons, bytes_append, urlDecodeLoop_escape (Ne.symm hcs.1), ih hcs.2,
        ← bytes_append]
      rfl
  rw [urlDecode, urlEncodeB64, utf8_ofList, hloop _ h]
  exact fromUtf8Lossy_utf8 s

/-! ## One decoder -/

theorem hv_eq (c : UInt8) : hv c = (Hex.val c).map UInt8.ofNat ∧ ∀ n ∈ Hex.val c, n < 16 := by
  have hall : ∀ n < 256, hv (UInt8.ofNat n) = (Hex.val (UInt8.ofNat n)).map UInt8.ofNat ∧
      ∀ m ∈ Hex.val (UInt8.ofNat n), m < 16 := by
    decide +kernel
  have hc := hall c.toNat c.toNat_lt
  rwa [UInt8.ofNat_toNat] at hc

theorem shift_or_eq : ∀ h < 16, ∀ l < 16,
    (UInt8.ofNat h <<< 4 ||| UInt8.ofNat l) = UInt8.ofNat (h * 16 + l) := by
  decide +kernel

/-- The client decodes a query as the server in the tunnel does. -/
theorem urlDecode_eq (s : String) : urlDecode s = Http.urlDecode s := by
  have hloop : ∀ (fuel : ℕ) (bs : List UInt8), bs.length ≤ fuel →
      urlDecodeLoop bs = Http.urlDecodeLoop fuel bs := by
    intro fuel
    induction fuel with
    | zero =>
      intro bs hfuel
      rw [List.eq_nil_of_length_eq_zero (Nat.le_zero.mp hfuel)]
      rfl
    | succ fuel ih =>
      intro bs hfuel
      match bs with
      | [] => rfl
      | b :: bs =>
        rw [List.length_cons] at hfuel
        by_cases hplus : b = 43
        · subst hplus
          rw [Http.urlDecodeLoop, ← ih bs (by omega), urlDecodeLoop.eq_def]
          rfl
        by_cases hpercent : b = 37
        · subst hpercent
          -- a percent sign needs two digits behind it
          match bs with
          | [] =>
            show 37 :: urlDecodeLoop [] = 37 :: Http.urlDecodeLoop fuel []
            rw [ih [] (by omega)]
          | [x] =>
            show 37 :: urlDecodeLoop [x] = 37 :: Http.urlDecodeLoop fuel [x]
            rw [ih [x] (by omega)]
          | h :: l :: rest =>
            have hcopy := ih (h :: l :: rest) (by omega)
            have hrest := ih rest (by simp only [List.length_cons] at hfuel; omega)
            obtain ⟨hh, hh16⟩ := hv_eq h
            obtain ⟨hl, hl16⟩ := hv_eq l
            rw [urlDecodeLoop, if_neg (by decide), if_pos rfl, hh, hl, Http.urlDecodeLoop, hrest,
              hcopy]
            rcases hvh : Hex.val h with _ | v
            · rfl
            rcases hvl : Hex.val l with _ | w
            · rfl
            · dsimp only [Option.map_some]
              rw [shift_or_eq v (hh16 v hvh) w (hl16 w hvl)]
        · rw [urlDecodeLoop_cons ⟨hplus, hpercent⟩, Http.urlDecodeLoop, ih bs (by omega)]
          · exact hplus
          · exact hpercent
  rw [urlDecode, Http.urlDecode, hloop _ _ le_rfl]

/-- **The header survives the URL**, and decodes to the message. -/
theorem header_round_trip (data : List UInt8) :
    Base64.decode (base64Std data).toList = some data ∧
      urlDecode (urlEncodeB64 (base64Std data)) = base64Std data := by
  have hpercent : '%' ∉ (base64Std data).toList := by
    intro hmem
    exact forall_mem_base64Std (p := fun c => c ≠ '%') (by decide +kernel) (by decide) data _ hmem
      rfl
  exact ⟨decode_base64Std data, urlDecode_urlEncodeB64 hpercent⟩

end HandshakeHeader
