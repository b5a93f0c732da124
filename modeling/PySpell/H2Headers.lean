/-
# Header blocks of the client

What `enc_header` writes and what `decode_status` reads.  The writer follows RFC 7541
(`encStr_eq`, `encHeader_eq`), for strings of every length, so a decoder after the RFC reads
a block back.  `decode_status` takes the low seven bits of the first octet for the length and
does not read on where they are full: a string of 127 octets or more puts it out of step with
the block.

`InStep` says that no such string comes up to the first `:status`.  There the status is found
(`decodeStatusLoop_of_inStep`); behind a long value of visible characters it is not
(`decodeStatusLoop_of_not_inStep`).
-/
import PySpell.H2
import PySpell.Lib.Hpack

open Text

namespace NetMap.H2

/-! ## The writer -/

theorem encRem_eq {fuel rem : ℕ} (h : rem ≤ fuel) : encRem fuel rem = Hpack.octets rem := by
  induction fuel generalizing rem with
  | zero =>
    obtain rfl : rem = 0 := Nat.le_zero.mp h
    rw [Hpack.octets]
    rfl
  | succ fuel ih =>
    rw [encRem, Hpack.octets]
    split
    · rw [ih (by omega)]
    · rfl

/-- **A string is written as the RFC has it**, for every length. -/
theorem encStr_eq (s : List UInt8) : encStr s = Hpack.stringText s := by
  have hfull : 2 ^ 7 - 1 = 0x7f := rfl
  rw [encStr, Hpack.stringText, Hpack.integerText, hfull]
  split
  · rfl
  · rw [encRem_eq (Nat.sub_le _ _)]
    rfl

theorem encHeader_eq (name value : String) :
    encHeader name value = Hpack.fieldText (utf8 name, utf8 value) := by
  rw [encHeader, encStr_eq, encStr_eq]
  rfl

/-- The block that `enc_header` makes of some headers. -/
def block (hs : List (String × String)) : List UInt8 := hs.flatMap fun h => encHeader h.1 h.2

/-- **A decoder after RFC 7541 reads the block back.** -/
theorem fields_block (hs : List (String × String)) :
    Hpack.fields (block hs) = some (hs.map fun h => (utf8 h.1, utf8 h.2)) := by
  have hblock : block hs = (hs.map fun h => (utf8 h.1, utf8 h.2)).flatMap Hpack.fieldText := by
    rw [List.flatMap_map, block]
    congr 1
    funext h
    exact encHeader_eq h.1 h.2
  rw [hblock, Hpack.fields_flatMap]

/-! ## The reader -/

/-- The number in the first `:status`. -/
def statusOf (hs : List (String × String)) : Option ℕ :=
  (hs.find? fun h => h.1 = ":status").bind fun h => parseUnsigned 16 h.2

/-- The length has one octet. -/
def Short (s : String) : Prop := (utf8 s).length < 0x7f

instance (s : String) : Decidable (Short s) := inferInstanceAs (Decidable (_ < _))

/-- Up to the first `:status`, the strings are short. -/
def InStep : List (String × String) → Prop
  | [] => True
  | h :: hs => Short h.1 ∧ Short h.2 ∧ (h.1 = ":status" ∨ InStep hs)

theorem literal_encStr {s : List UInt8} (h : s.length < 0x7f) (l : List UInt8) :
    literal (encStr s ++ l) = some (s, l) := by
  have hlen : (UInt8.ofNat s.length &&& 0x7f).toNat = s.length := by
    have hmask : (0x7f : UInt8).toNat = 2 ^ 7 - 1 := rfl
    rw [UInt8.toNat_and, hmask, Nat.and_two_pow_sub_one_eq_mod, UInt8.toNat_ofNat']
    omega
  rw [encStr, if_pos h, List.cons_append, literal]
  simp only [hlen]
  rw [if_neg (by simp), List.take_left, List.drop_left]

theorem utf8_inj {s t : String} : utf8 s = utf8 t ↔ s = t := by
  refine ⟨fun h => ?_, congrArg utf8⟩
  have hs := fromUtf8_utf8 s
  rw [h, fromUtf8_utf8] at hs
  exact (Except.ok.inj hs).symm

/-- One header with a short name: its value is read as a string with one octet of length. -/
theorem decodeStatusLoop_encHeader {name value : String} (hname : Short name) (fuel : ℕ)
    (l : List UInt8) :
    decodeStatusLoop (fuel + 1) (encHeader name value ++ l) =
      (literal (encStr (utf8 value) ++ l)).bind fun (val, rest) =>
        if name = ":status" then
          match fromUtf8 val with
          | .ok s => parseUnsigned 16 s
          | .error _ => none
        else decodeStatusLoop fuel rest := by
  rw [encHeader, List.append_assoc, List.cons_append, decodeStatusLoop, if_neg (by decide),
    if_pos (by decide), literal_encStr hname]
  show (literal (encStr (utf8 value) ++ l)).bind _ = _
  refine Option.bind_congr fun val _ => ?_
  exact if_congr utf8_inj rfl rfl

/-- **While the reader is in step**, it finds the status. -/
theorem decodeStatusLoop_of_inStep {hs : List (String × String)} (h : InStep hs) {fuel : ℕ}
    (hfuel : hs.length < fuel) : decodeStatusLoop fuel (block hs) = statusOf hs := by
  induction hs generalizing fuel with
  | nil =>
    obtain ⟨fuel, rfl⟩ : ∃ k, fuel = k + 1 := ⟨fuel - 1, by simp at hfuel; omega⟩
    rfl
  | cons h hs ih =>
    obtain ⟨hname, hvalue, hrest⟩ := h
    rw [List.length_cons] at hfuel
    obtain ⟨fuel, rfl⟩ : ∃ k, fuel = k + 1 := ⟨fuel - 1, by omega⟩
    have hblock : block (h :: hs) = encHeader h.1 h.2 ++ block hs := rfl
    rw [hblock, decodeStatusLoop_encHeader hname, literal_encStr hvalue, Option.bind_some]
    dsimp only
    by_cases hstatus : h.1 = ":status"
    · have hfirst : statusOf (h :: hs) = parseUnsigned 16 h.2 := by
        rw [statusOf, List.find?_cons_of_pos (by simpa using hstatus)]
        rfl
      rw [if_pos hstatus, fromUtf8_utf8, hfirst]
    · have hnext : statusOf (h :: hs) = statusOf hs := by
        rw [statusOf, List.find?_cons_of_neg (by simpa using hstatus)]
        rfl
      rw [if_neg hstatus, hnext]
      exact ih (hrest.resolve_left hstatus) (by omega)

/-! ## Out of step -/

/-- Visible ASCII characters and the space. -/
def Visible (s : String) : Prop := ∀ b ∈ utf8 s, 0x20 ≤ b.toNat ∧ b.toNat < 0x7f

instance (s : String) : Decidable (Visible s) :=
  inferInstanceAs (Decidable (∀ b ∈ utf8 s, _))

/-- Headers whose names are short and whose values are visible; of the values, those of a
`:status` are short too, and the others of a size that a machine can hold. -/
structure Plain (hs : List (String × String)) : Prop where
  name : ∀ h ∈ hs, Short h.1
  visible : ∀ h ∈ hs, Visible h.2
  size : ∀ h ∈ hs, (utf8 h.2).length < 2 ^ 64
  status : ∀ h ∈ hs, h.1 = ":status" → Short h.2

theorem Plain.tail {h : String × String} {hs : List (String × String)} (hp : Plain (h :: hs)) :
    Plain hs :=
  ⟨fun g hg => hp.name g (List.mem_cons_of_mem h hg),
    fun g hg => hp.visible g (List.mem_cons_of_mem h hg),
    fun g hg => hp.size g (List.mem_cons_of_mem h hg),
    fun g hg => hp.status g (List.mem_cons_of_mem h hg)⟩

/-- The reader stops at a visible character. -/
theorem decodeStatusLoop_visible (fuel : ℕ) {b : UInt8} (h : 0x20 ≤ b.toNat ∧ b.toNat < 0x7f)
    (l : List UInt8) : decodeStatusLoop fuel (b :: l) = none := by
  have hbits : ∀ n < 0x7f, 0x20 ≤ n →
      UInt8.ofNat n &&& 0x80 = 0 ∧ UInt8.ofNat n &&& 0xf0 ≠ 0 := by
    decide +kernel
  obtain ⟨hindexed, hliteral⟩ := hbits b.toNat h.2 h.1
  rw [UInt8.ofNat_toNat] at hindexed hliteral
  cases fuel with
  | zero => rfl
  | succ fuel => rw [decodeStatusLoop, if_neg (not_not_intro hindexed), if_neg hliteral]

/-- Of a long string the reader takes 127 bytes, the octets of its length among them. -/
theorem literal_encStr_long {s : List UInt8} (h : 0x7f ≤ s.length) (l : List UInt8) :
    ∃ val, literal (encStr s ++ l) =
      some (val, (Hpack.octets (s.length - 0x7f) ++ (s ++ l)).drop 0x7f) := by
  have hmask : ((0x7f : UInt8) &&& 0x7f).toNat = 0x7f := rfl
  have hlen : ¬ (Hpack.octets (s.length - 0x7f) ++ (s ++ l)).length < 0x7f := by
    rw [List.length_append, List.length_append]
    omega
  rw [encStr, if_neg (by omega), encRem_eq (Nat.sub_le _ _), List.append_assoc, List.cons_append,
    literal]
  simp only [hmask]
  rw [if_neg hlen]
  exact ⟨_, rfl⟩

/-- What is left of a long value begins with a character of it. -/
theorem drop_octets {s : List UInt8} (h : 0x7f ≤ s.length) (hsize : s.length < 2 ^ 64)
    (l : List UInt8) :
    ∃ b rest, (Hpack.octets (s.length - 0x7f) ++ (s ++ l)).drop 0x7f = b :: rest ∧ b ∈ s := by
  have hoctets : (Hpack.octets (s.length - 0x7f)).length ≤ 9 + 1 :=
    Hpack.length_octets_le (by omega)
  have hpos : 0 < (Hpack.octets (s.length - 0x7f)).length :=
    List.length_pos_iff.mpr (Hpack.octets_ne_nil _)
  obtain ⟨k, hk⟩ : ∃ k, k = 0x7f - (Hpack.octets (s.length - 0x7f)).length := ⟨_, rfl⟩
  have hin : k < s.length := by omega
  rw [List.drop_append, List.drop_eq_nil_of_le (by omega), List.nil_append, ← hk,
    List.drop_append_of_le_length hin.le, List.drop_eq_getElem_cons hin]
  exact ⟨_, _, rfl, List.getElem_mem hin⟩

/-- **Out of step**: behind a long value the status is not found. -/
theorem decodeStatusLoop_of_not_inStep {hs : List (String × String)} (hp : Plain hs)
    (h : ¬ InStep hs) (fuel : ℕ) : decodeStatusLoop fuel (block hs) = none := by
  induction hs generalizing fuel with
  | nil => exact absurd trivial h
  | cons g hs ih =>
    have hname := hp.name g List.mem_cons_self
    cases fuel with
    | zero => rfl
    | succ fuel =>
      have hblock : block (g :: hs) = encHeader g.1 g.2 ++ block hs := rfl
      rw [hblock, decodeStatusLoop_encHeader hname]
      by_cases hshort : Short g.2
      · -- the value is skipped, and the fault is further on
        have hrest : ¬ (g.1 = ":status" ∨ InStep hs) := fun hor => h ⟨hname, hshort, hor⟩
        rw [not_or] at hrest
        rw [literal_encStr hshort, Option.bind_some]
        dsimp only
        rw [if_neg hrest.1, ih hp.tail hrest.2]
      · have hlong : 0x7f ≤ (utf8 g.2).length := Nat.le_of_not_lt hshort
        have hstatus : g.1 ≠ ":status" := fun heq =>
          hshort (hp.status g List.mem_cons_self heq)
        obtain ⟨val, hval⟩ := literal_encStr_long hlong (block hs)
        obtain ⟨b, rest, hdrop, hb⟩ :=
          drop_octets hlong (hp.size g List.mem_cons_self) (block hs)
        rw [hval, hdrop, Option.bind_some]
        dsimp only
        rw [if_neg hstatus, decodeStatusLoop_visible fuel (hp.visible g List.mem_cons_self b hb)]

theorem length_le_block (hs : List (String × String)) : hs.length ≤ (block hs).length := by
  induction hs with
  | nil => exact le_rfl
  | cons h hs ih =>
    have hblock : block (h :: hs) = encHeader h.1 h.2 ++ block hs := rfl
    have hpos : 0 < (encHeader h.1 h.2).length := by simp [encHeader]
    rw [hblock, List.length_append, List.length_cons]
    omega

/-- **What is written is read back.**  A decoder after RFC 7541 recovers every list of
headers; `decode_status` finds the number of the first `:status` when no string up to it has
127 bytes or more, and of plain headers it does so in no other case where there is a number
to find. -/
theorem headers_read_back (hs : List (String × String)) :
    Hpack.fields (block hs) = some (hs.map fun h => (utf8 h.1, utf8 h.2)) ∧
    (InStep hs → decodeStatus (block hs) = statusOf hs) ∧
    (Plain hs → (decodeStatus (block hs) = statusOf hs ↔ InStep hs ∨ statusOf hs = none)) := by
  have hfound : InStep hs → decodeStatus (block hs) = statusOf hs := fun h =>
    decodeStatusLoop_of_inStep h (Nat.lt_succ_of_le (length_le_block hs))
  refine ⟨fields_block hs, hfound, fun hp => ⟨fun heq => ?_, ?_⟩⟩
  · by_cases h : InStep hs
    · exact Or.inl h
    · right
      rw [← heq]
      exact decodeStatusLoop_of_not_inStep hp h _
  · rintro (h | hnone)
    · exact hfound h
    · by_cases h : InStep hs
      · exact hfound h
      · rw [hnone]
        exact decodeStatusLoop_of_not_inStep hp h _

/-- A value of 127 bytes in front of the status hides it. -/
theorem decodeStatus_loses :
    ¬ ∀ hs, Hpack.fields (block hs) = some (hs.map fun h => (utf8 h.1, utf8 h.2)) ∧
      decodeStatus (block hs) = statusOf hs := by
  intro h
  have heq := (h [("server", String.ofList (List.replicate 127 'a')), (":status", "200")]).2
  revert heq
  decide +kernel

/-- Behind a short header the status is found, and behind a long one it is not. -/
theorem headers_read_back_two :
    decodeStatus (block [("server", "ts"), (":status", "200")]) = some 200 ∧
      decodeStatus (block [("server", String.ofList (List.replicate 127 'a')),
        (":status", "200")]) ≠ some 200 := by
  constructor
  · exact (headers_read_back [("server", "ts"), (":status", "200")]).2.1
      ⟨by decide, by decide, Or.inr ⟨by decide, by decide, Or.inl rfl⟩⟩
  · have hlong : ¬ Short (String.ofList (List.replicate 127 'a')) := by decide +kernel
    have hiff := (headers_read_back
      [("server", String.ofList (List.replicate 127 'a')), (":status", "200")]).2.2
        ⟨by decide +kernel, by decide +kernel, by decide +kernel, by decide +kernel⟩
    intro heq
    rcases hiff.mp heq with hstep | hnone
    · exact hlong hstep.2.1
    · exact absurd hnone (by decide +kernel)

end NetMap.H2
