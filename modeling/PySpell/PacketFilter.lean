/-
# The packet filter of the network map

What `parse_allowed_srcs` makes of the rules of a response: the sources of the rules that
cover our address.  A network is a number of leading bits (`LiesIn`), and the mask of
`parse_cidr` decides it for every number of bits (`and_maskOf`).  The texts of networks
are those of Rust's `Ipv4Addr` with a decimal number of bits behind them; more than 32
bits count as 32.

No answer means that everything is allowed.  It is also the answer when our own address
cannot be read, whatever the rules are (`filter_dropped`).
-/
import Mathlib.Data.List.TakeWhile
import PySpell.DataPlane
import PySpell.NetMapFraming

open Text

namespace NetMap

/-! ## Networks -/

/-- An address lies in a network: the leading bits agree. -/
def LiesIn (net : UInt32) (bits : ℕ) (ip : UInt32) : Prop :=
  ip.toNat / 2 ^ (32 - bits) = net.toNat / 2 ^ (32 - bits)

/-- The bits of a mask without the last `k`. -/
theorem testBit_mask {k : ℕ} (hk : k < 32) (i : ℕ) :
    (0xffffffff <<< UInt32.ofNat k : UInt32).toNat.testBit i =
      (decide (k ≤ i) && decide (i < 32)) := by
  have hmask : (0xffffffff <<< UInt32.ofNat k : UInt32).toNat = (2 ^ 32 - 1) <<< k % 2 ^ 32 := by
    rw [UInt32.toNat_shiftLeft, UInt32.toNat_ofNat', Nat.mod_eq_of_lt (by omega : k < 2 ^ 32),
      Nat.mod_eq_of_lt hk]
    rfl
  rw [hmask, Nat.testBit_mod_two_pow, Nat.testBit_shiftLeft, Nat.testBit_two_pow_sub_one]
  by_cases hle : k ≤ i
  · by_cases hlt : i < 32
    · simp only [hle, hlt, decide_true, Bool.true_and]
      exact decide_eq_true (by omega)
    · simp [hlt]
  · simp [hle]

/-- Two numbers agree behind a mask without the last `k` bits if they agree without
these bits. -/
theorem and_mask_eq_iff {k : ℕ} (hk : k < 32) (x y : UInt32) :
    x &&& 0xffffffff <<< UInt32.ofNat k = y &&& 0xffffffff <<< UInt32.ofNat k ↔
      x.toNat / 2 ^ k = y.toNat / 2 ^ k := by
  rw [← UInt32.toNat_inj, UInt32.toNat_and, UInt32.toNat_and]
  constructor
  · intro h
    apply Nat.eq_of_testBit_eq
    intro i
    rw [Nat.testBit_div_two_pow, Nat.testBit_div_two_pow]
    have hbit := congrArg (fun n => n.testBit (i + k)) h
    simp only [Nat.testBit_and, testBit_mask hk] at hbit
    by_cases hi : i + k < 32
    · simpa [hi] using hbit
    · -- there are no bits behind the last
      have hpow : 2 ^ 32 ≤ 2 ^ (i + k) := Nat.pow_le_pow_right (by decide) (by omega)
      rw [Nat.testBit_lt_two_pow (x.toNat_lt.trans_le hpow),
        Nat.testBit_lt_two_pow (y.toNat_lt.trans_le hpow)]
  · intro h
    apply Nat.eq_of_testBit_eq
    intro i
    rw [Nat.testBit_and, Nat.testBit_and, testBit_mask hk]
    by_cases hi : k ≤ i
    · have hbit := congrArg (fun n => n.testBit (i - k)) h
      simp only [Nat.testBit_div_two_pow, Nat.sub_add_cancel hi] at hbit
      rw [hbit]
    · simp [hi]

/-- **The mask decides whether an address lies in a network**, for every number of bits. -/
theorem and_maskOf (net : UInt32) (bits : ℕ) (ip : UInt32) :
    ip &&& maskOf bits = net &&& maskOf bits ↔ LiesIn net bits ip := by
  unfold maskOf LiesIn
  by_cases hzero : bits = 0
  · have hx := ip.toNat_lt
    have hy := net.toNat_lt
    rw [if_pos hzero, hzero, UInt32.and_zero, UInt32.and_zero, Nat.sub_zero,
      Nat.div_eq_of_lt hx, Nat.div_eq_of_lt hy]
    exact iff_of_true rfl rfl
  · have hbits : 32 - min bits 32 = 32 - bits := by omega
    rw [if_neg hzero, hbits]
    exact and_mask_eq_iff (by omega) ip net

/-! ## Texts of networks -/

/-- The text of a network: an address, or an address and a number of leading bits. -/
inductive IsCidr : String → UInt32 → ℕ → Prop
  | bare {s : String} {net : UInt32} (h : parseIpv4 s = some net) : IsCidr s net 32
  | withBits {ip digits : String} {net : UInt32} {bits : ℕ} (hip : parseIpv4 ip = some net)
      (hbits : parseUnsigned 32 digits = some bits) : IsCidr (ip ++ "/" ++ digits) net bits

/-- What is in no part is in no list of parts, but for the separator. -/
theorem not_mem_intercalate {α : Type*} {sep c : α} (hne : c ≠ sep) {parts : List (List α)}
    (h : ∀ part ∈ parts, c ∉ part) : c ∉ [sep].intercalate parts := by
  induction parts with
  | nil => simp [List.intercalate]
  | cons part rest ih =>
    have hhead := h part List.mem_cons_self
    cases rest with
    | nil => simpa [List.intercalate_singleton] using hhead
    | cons next rest =>
      have hrest := ih fun p hp => h p (List.mem_cons_of_mem _ hp)
      rw [List.intercalate_cons_cons, List.mem_append, List.mem_append, List.mem_singleton]
      rintro ((hpart | hsep) | htail)
      · exact hhead hpart
      · exact hne hsep
      · exact hrest htail

/-- Digits are no slashes. -/
theorem slash_not_mem_of_parseDigits {ds : List Char} {n : ℕ} (h : parseDigits ds = some n) :
    '/' ∉ ds := by
  intro hmem
  rw [parseDigits] at h
  split at h
  · next hd =>
    rw [Bool.and_eq_true, List.all_eq_true] at hd
    exact absurd (hd.2 _ hmem) (by decide)
  · cases h

theorem slash_not_mem_of_parseOctet {s : String} {n : ℕ} (h : parseOctet s = some n) :
    '/' ∉ s.toList := by
  obtain ⟨m, hm, -⟩ := Option.bind_eq_some_iff.mp h
  exact slash_not_mem_of_parseDigits hm

/-- There is no slash in an address. -/
theorem slash_not_mem_of_parseIpv4 {s : String} {ip : UInt32} (h : parseIpv4 s = some ip) :
    '/' ∉ s.toList := by
  rw [parseIpv4] at h
  split at h
  · next hsplit =>
    obtain ⟨na, ha, h⟩ := Option.bind_eq_some_iff.mp h
    obtain ⟨nb, hb, h⟩ := Option.bind_eq_some_iff.mp h
    obtain ⟨nc, hc, h⟩ := Option.bind_eq_some_iff.mp h
    obtain ⟨nd, hd, -⟩ := Option.bind_eq_some_iff.mp h
    have hpieces : ∀ piece ∈ s.toList.splitOn '.', '/' ∉ piece := by
      intro piece hpiece
      have hmem : String.ofList piece ∈ splitChar '.' s := List.mem_map_of_mem hpiece
      rw [hsplit] at hmem
      simp only [List.mem_cons, List.not_mem_nil, or_false] at hmem
      have hnot : '/' ∉ (String.ofList piece).toList := by
        rcases hmem with heq | heq | heq | heq
        · exact heq ▸ slash_not_mem_of_parseOctet ha
        · exact heq ▸ slash_not_mem_of_parseOctet hb
        · exact heq ▸ slash_not_mem_of_parseOctet hc
        · exact heq ▸ slash_not_mem_of_parseOctet hd
      rwa [String.toList_ofList] at hnot
    have hnot := not_mem_intercalate (by decide : '/' ≠ '.') hpieces
    rwa [List.intercalate_splitOn] at hnot
  · cases h

theorem ne_slash {l : List Char} (h : '/' ∉ l) : ∀ c ∈ l, decide (c ≠ '/') = true :=
  fun _ hc => decide_eq_true fun heq => h (heq ▸ hc)

theorem splitSlash_of_not_mem {s : String} (h : '/' ∉ s.toList) : splitSlash s = none := by
  rw [splitSlash, List.dropWhile_eq_nil_iff.mpr (ne_slash h)]

theorem splitSlash_append {ip digits : String} (h : '/' ∉ ip.toList) :
    splitSlash (ip ++ "/" ++ digits) = some (ip, digits) := by
  have htext : (ip ++ "/" ++ digits).toList = ip.toList ++ '/' :: digits.toList := by simp
  rw [splitSlash, htext, List.dropWhile_append_of_pos (ne_slash h),
    List.takeWhile_append_of_pos (ne_slash h)]
  simp

theorem splitSlash_eq_some {s ip digits : String} (h : splitSlash s = some (ip, digits)) :
    s = ip ++ "/" ++ digits := by
  rw [splitSlash] at h
  split at h
  · cases h
  · next c rest hdrop =>
    obtain ⟨rfl, rfl⟩ := Prod.mk.inj (Option.some.inj h)
    have hhead := List.head?_dropWhile_not (fun c => decide (c ≠ '/')) s.toList
    rw [hdrop] at hhead
    have hslash : c = '/' := by simpa using hhead
    have htext : s.toList = s.toList.takeWhile (fun c => decide (c ≠ '/')) ++ c :: rest := by
      rw [← hdrop, List.takeWhile_append_dropWhile]
    rw [hslash] at htext
    apply String.toList_injective
    simpa using htext

/-- A text without a slash is an address. -/
theorem parseCidr_of_none {s : String} (h : splitSlash s = none) :
    parseCidr s = (parseIpv4 s).map fun net => (net, maskOf 32) := by
  rw [parseCidr, h]
  cases hip : parseIpv4 s with
  | none => simp [hip]
  | some net => simp [hip]

/-- In front of the slash is the address, behind it the number of bits. -/
theorem parseCidr_of_some {s ip digits : String} (h : splitSlash s = some (ip, digits)) :
    parseCidr s = (parseUnsigned 32 digits).bind fun bits =>
      (parseIpv4 ip).map fun net => (net, maskOf bits) := by
  rw [parseCidr, h]
  cases hbits : parseUnsigned 32 digits with
  | none => simp [hbits]
  | some bits =>
    cases hip : parseIpv4 ip with
    | none => simp [hbits, hip]
    | some net => simp [hbits, hip]

/-- **`parse_cidr` reads the texts of networks**, and nothing else. -/
theorem parseCidr_eq_some {s : String} {c : Cidr} :
    parseCidr s = some c ↔ ∃ net bits, IsCidr s net bits ∧ c = (net, maskOf bits) := by
  constructor
  · intro h
    cases hsplit : splitSlash s with
    | none =>
      rw [parseCidr_of_none hsplit] at h
      obtain ⟨net, hnet, heq⟩ := Option.map_eq_some_iff.mp h
      exact ⟨net, 32, .bare hnet, heq.symm⟩
    | some pair =>
      obtain ⟨ip, digits⟩ := pair
      rw [parseCidr_of_some hsplit] at h
      obtain ⟨bits, hbits, h⟩ := Option.bind_eq_some_iff.mp h
      obtain ⟨net, hnet, heq⟩ := Option.map_eq_some_iff.mp h
      refine ⟨net, bits, ?_, heq.symm⟩
      rw [splitSlash_eq_some hsplit]
      exact .withBits hnet hbits
  · rintro ⟨net, bits, hcidr, rfl⟩
    cases hcidr with
    | bare h =>
      rw [parseCidr_of_none (splitSlash_of_not_mem (slash_not_mem_of_parseIpv4 h)), h]
      rfl
    | withBits hip hbits =>
      rw [parseCidr_of_some (splitSlash_append (slash_not_mem_of_parseIpv4 hip)), hbits, hip]
      rfl

/-! ## Our address -/

theorem slash_not_mem_of_parseUnsigned {bits n : ℕ} {s : String}
    (h : parseUnsigned bits s = some n) : '/' ∉ s.toList := by
  obtain ⟨m, hm, -⟩ := Option.bind_eq_some_iff.mp h
  cases hs : s.toList with
  | nil => exact List.not_mem_nil
  | cons c ds =>
    rw [hs] at hm
    by_cases hplus : c = '+'
    · subst hplus
      rintro (_ | ⟨_, hmem⟩)
      exact slash_not_mem_of_parseDigits hm hmem
    · refine slash_not_mem_of_parseDigits (n := m) ?_
      simpa [hplus] using hm

/-- Our address is read as an address: nothing else makes a network with `/32`. -/
theorem parseCidr_own (our : String) :
    parseCidr (our ++ "/32") = (parseIpv4 our).map fun ours => (ours, maskOf 32) := by
  have htext : our ++ "/32" = our ++ "/" ++ "32" := by
    rw [String.append_assoc]
    rfl
  by_cases hslash : '/' ∈ our.toList
  · -- the slash of `/32` is the second, and there is none in a number
    obtain ⟨front, rest, hour, hfront⟩ := List.eq_append_cons_of_mem hslash
    have hsplit : our ++ "/32" = String.ofList front ++ "/" ++ (String.ofList rest ++ "/32") := by
      apply String.toList_injective
      simp [hour]
    have hnum : parseUnsigned 32 (String.ofList rest ++ "/32") = none := by
      refine Option.eq_none_iff_forall_ne_some.mpr fun n hn => ?_
      exact slash_not_mem_of_parseUnsigned hn (by simp)
    have hip : parseIpv4 our = none :=
      Option.eq_none_iff_forall_ne_some.mpr fun ip h => slash_not_mem_of_parseIpv4 h hslash
    have hfront' : '/' ∉ (String.ofList front).toList := by rwa [String.toList_ofList]
    rw [hip, hsplit, parseCidr_of_some (splitSlash_append hfront'), hnum]
    rfl
  · rw [htext, parseCidr_of_some (splitSlash_append hslash)]
    rfl

/-! ## The rules -/

/-- A destination of the rule is a star or a network around the address. -/
def Covers (rule : FilterRule) (ours : UInt32) : Prop :=
  ∃ d ∈ rule.dstPorts.getD [], ∃ ip, d.ip = some ip ∧
    (ip = "*" ∨ ∃ net bits, IsCidr ip net bits ∧ LiesIn net bits ours)

theorem cidrContains_parseCidr (ip : String) (ours : UInt32) :
    cidrContains (parseCidr ip) ours = true ↔
      ∃ net bits, IsCidr ip net bits ∧ LiesIn net bits ours := by
  constructor
  · intro h
    cases hcidr : parseCidr ip with
    | none =>
      rw [hcidr] at h
      cases h
    | some c =>
      obtain ⟨net, bits, his, rfl⟩ := parseCidr_eq_some.mp hcidr
      rw [hcidr] at h
      exact ⟨net, bits, his, (and_maskOf net bits ours).mp (of_decide_eq_true h)⟩
  · rintro ⟨net, bits, his, hlies⟩
    rw [parseCidr_eq_some.mpr ⟨net, bits, his, rfl⟩]
    exact decide_eq_true ((and_maskOf net bits ours).mpr hlies)

theorem coversUs_iff (rule : FilterRule) (ours : UInt32) :
    coversUs rule ours = true ↔ Covers rule ours := by
  simp only [coversUs, Covers, List.any_eq_true, List.mem_filterMap, Bool.or_eq_true,
    decide_eq_true_iff, cidrContains_parseCidr]
  constructor
  · rintro ⟨ip, ⟨d, hd, hip⟩, h⟩
    exact ⟨d, hd, ip, hip, h⟩
  · rintro ⟨d, hd, ip, hip, h⟩
    exact ⟨ip, ⟨d, hd, hip⟩, h⟩

/-- A source of a rule: a star is the network of all addresses. -/
inductive IsSource : String → UInt32 → ℕ → Prop
  | any : IsSource "*" 0 0
  | network {s : String} {net : UInt32} {bits : ℕ} (h : IsCidr s net bits) : IsSource s net bits

theorem sourceCidr_eq_some {s : String} {c : Cidr} :
    sourceCidr s = some c ↔ ∃ net bits, IsSource s net bits ∧ c = (net, maskOf bits) := by
  rw [sourceCidr]
  by_cases hstar : s = "*"
  · rw [if_pos hstar]
    constructor
    · intro h
      exact ⟨0, 0, hstar ▸ .any, (Option.some_inj.mp h).symm⟩
    · rintro ⟨net, bits, his, rfl⟩
      cases his with
      | any => rfl
      | network h =>
        -- a star is not the text of a network
        have hcidr := parseCidr_eq_some.mpr ⟨net, bits, h, rfl⟩
        have hnone : parseCidr "*" = none := by decide
        rw [hstar, hnone] at hcidr
        cases hcidr
  · rw [if_neg hstar, parseCidr_eq_some]
    constructor
    · rintro ⟨net, bits, his, heq⟩
      exact ⟨net, bits, .network his, heq⟩
    · rintro ⟨net, bits, his, heq⟩
      cases his with
      | any => exact absurd rfl hstar
      | network h => exact ⟨net, bits, h, heq⟩

/-- A network is a source of a rule that covers the address. -/
def Source (rules : List FilterRule) (ours : UInt32) (net : UInt32) (bits : ℕ) : Prop :=
  ∃ rule ∈ rules, Covers rule ours ∧ ∃ s ∈ rule.srcIps.getD [], IsSource s net bits

theorem allowedSrcs_some (rules : List FilterRule) (our : String) :
    allowedSrcs (some rules) our = (parseIpv4 our).map fun ours =>
      rules.flatMap fun rule =>
        if coversUs rule ours then (rule.srcIps.getD []).filterMap sourceCidr else [] := by
  rw [allowedSrcs, parseCidr_own]
  cases parseIpv4 our with
  | none => rfl
  | some ours => rfl

theorem mem_sources {rules : List FilterRule} {ours : UInt32} {c : Cidr} :
    (c ∈ rules.flatMap fun rule =>
      if coversUs rule ours then (rule.srcIps.getD []).filterMap sourceCidr else []) ↔
    ∃ net bits, Source rules ours net bits ∧ c = (net, maskOf bits) := by
  rw [List.mem_flatMap]
  constructor
  · rintro ⟨rule, hrule, hmem⟩
    split at hmem
    · next hcovers =>
      obtain ⟨s, hs, hsource⟩ := List.mem_filterMap.mp hmem
      obtain ⟨net, bits, his, heq⟩ := sourceCidr_eq_some.mp hsource
      exact ⟨net, bits, ⟨rule, hrule, (coversUs_iff rule ours).mp hcovers, s, hs, his⟩, heq⟩
    · exact absurd hmem List.not_mem_nil
  · rintro ⟨net, bits, ⟨rule, hrule, hcovers, s, hs, his⟩, heq⟩
    refine ⟨rule, hrule, ?_⟩
    rw [if_pos ((coversUs_iff rule ours).mpr hcovers)]
    exact List.mem_filterMap.mpr ⟨s, hs, sourceCidr_eq_some.mpr ⟨net, bits, his, heq⟩⟩

/-! ## The filter -/

/-- No filter only without rules; otherwise the sources of the rules that cover our
address, and an address matches if it lies in one of them. -/
structure Exact (pf : Option (List FilterRule)) (our : String) (result : Option (List Cidr)) :
    Prop where
  none : result = none → pf = none
  some : ∀ cidrs, result = some cidrs → ∃ rules ours, pf = some rules ∧ parseIpv4 our = some ours ∧
    (∀ c, c ∈ cidrs ↔ ∃ net bits, Source rules ours net bits ∧ c = (net, maskOf bits)) ∧
    ∀ ip, DataPlane.cidrMatch cidrs ip = true ↔
      ∃ net bits, Source rules ours net bits ∧ LiesIn net bits ip

theorem cidrMatch_iff {cidrs : List Cidr} {P : UInt32 → ℕ → Prop}
    (hmem : ∀ c, c ∈ cidrs ↔ ∃ net bits, P net bits ∧ c = (net, maskOf bits)) (ip : UInt32) :
    DataPlane.cidrMatch cidrs ip = true ↔ ∃ net bits, P net bits ∧ LiesIn net bits ip := by
  rw [DataPlane.cidrMatch, List.any_eq_true]
  constructor
  · rintro ⟨c, hc, h⟩
    obtain ⟨net, bits, hP, rfl⟩ := (hmem c).mp hc
    exact ⟨net, bits, hP, (and_maskOf net bits ip).mp (of_decide_eq_true h)⟩
  · rintro ⟨net, bits, hP, h⟩
    exact ⟨(net, maskOf bits), (hmem _).mpr ⟨net, bits, hP, rfl⟩,
      decide_eq_true ((and_maskOf net bits ip).mpr h)⟩

/-- **The filter is exact if and only if there is none, or our address is an address.** -/
theorem parseAllowedSrcs_exact {serde : Serde} {raw : List UInt8}
    {pf : Option (List FilterRule)} (hraw : serde.filterResp raw = some pf) (our : String) :
    Exact pf our (parseAllowedSrcs serde raw our) ↔
      pf = none ∨ ∃ ours, parseIpv4 our = some ours := by
  have hparse : parseAllowedSrcs serde raw our = allowedSrcs pf our := by
    rw [parseAllowedSrcs, hraw]
    rfl
  rw [hparse]
  cases pf with
  | none =>
    refine iff_of_true ⟨fun _ => rfl, fun cidrs h => ?_⟩ (Or.inl rfl)
    cases h
  | some rules =>
    rw [allowedSrcs_some]
    cases hour : parseIpv4 our with
    | none =>
      refine iff_of_false (fun h => ?_) ?_
      · cases h.none rfl
      · rintro (h | ⟨ours, h⟩)
        · cases h
        · cases h
    | some ours =>
      refine iff_of_true ⟨fun h => ?_, fun cidrs h => ?_⟩ (Or.inr ⟨ours, rfl⟩)
      · cases h
      · obtain rfl := Option.some_inj.mp h
        exact ⟨rules, ours, rfl, hour, fun c => mem_sources, cidrMatch_iff fun c => mem_sources⟩

theorem dropWhile_isBlank {text : List UInt8} {b : UInt8} (hhead : text.head? = some b)
    (hb : ¬ isBlank b = true) : text.dropWhile isBlank = text := by
  obtain ⟨rest, rfl⟩ := List.head?_eq_some_iff.mp hhead
  exact List.dropWhile_cons_of_neg hb

theorem textSerde_filterResp {text : List UInt8} (htext : text.dropWhile isBlank = text)
    (m : MapStreamResp) : (textSerde text m).filterResp text = some m.packetFilter :=
  if_pos htext

theorem ownMapText_filterResp :
    (textSerde ownMapText ownMap).filterResp ownMapText = some ownMap.packetFilter := by
  have hhead : ownMapText.head? = some '{'.toUInt8 := by
    rw [ownMapText, utf8, String.toList_append, List.flatMap_append]
    rfl
  exact textSerde_filterResp (dropWhile_isBlank hhead (by decide)) ownMap

/-- The map's rule, for our address. -/
theorem parseAllowedSrcs_exact_ownMap :
    Exact ownMap.packetFilter "100.64.0.12"
        (parseAllowedSrcs (textSerde ownMapText ownMap) ownMapText "100.64.0.12") ↔
      ownMap.packetFilter = none ∨ ∃ ours, parseIpv4 "100.64.0.12" = some ours :=
  parseAllowedSrcs_exact ownMapText_filterResp "100.64.0.12"

/-- **An address with its number of bits drops the filter**: with a rule for the address,
the answer is that there is none, and every packet may pass. -/
theorem filter_dropped :
    parseAllowedSrcs (textSerde ownMapText ownMap) ownMapText "100.64.0.12/32" = none ∧
      ¬ Exact ownMap.packetFilter "100.64.0.12/32"
        (parseAllowedSrcs (textSerde ownMapText ownMap) ownMapText "100.64.0.12/32") ∧
      ∀ inner, DataPlane.srcAllowed
        (parseAllowedSrcs (textSerde ownMapText ownMap) ownMapText "100.64.0.12/32") inner =
          true := by
  have hnone :
      parseAllowedSrcs (textSerde ownMapText ownMap) ownMapText "100.64.0.12/32" = none := by
    rw [parseAllowedSrcs, ownMapText_filterResp]
    change allowedSrcs ownMap.packetFilter "100.64.0.12/32" = none
    rw [ownMap, allowedSrcs_some]
    rfl
  refine ⟨hnone, fun h => ?_, fun inner => ?_⟩
  · cases h.none hnone
  · rw [hnone]
    rfl

end NetMap
