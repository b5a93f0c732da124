/-
# Reading `tokenizer.bin`

What `from_bytes` makes of any bytes, on a machine whose arithmetic is checked, and of the
file that `write_tokenizer_bin` of the training code makes.

The cursor moves by a length that the file gives, which may be negative: as a word it is
then a large number, and the end of the piece is past the largest one when the length leads
back into what was read already.  Every other length is read or refused
(`readRecord_spec`), so the reader returns unless it comes to such a record or is asked for
more room than there can be (`fromBytes_returns_iff`).
-/
import PySpell.CheckpointLayout
import PySpell.Tokenizer

open Checked

namespace TinyLlm

/-- A slice: no longer than half of the words. -/
abbrev Buffer (M : Machine) := { buf : List UInt8 // buf.length < 2 ^ (M.width - 1) }

namespace Tokenizer

/-! ## The records of a file -/

/-- The length that the record at `off` declares. -/
def lenAt (buf : List UInt8) (off : ℕ) : ℤ :=
  (UInt32.ofNat (Bytes.toNat (Bytes.slice buf (off + 4) 4))).toInt32.toInt

/-- The offset of the `k`-th record behind `off`, when the ones before it are complete. -/
def recordAt (buf : List UInt8) : ℕ → ℕ → Option ℕ
  | 0, off => some off
  | k + 1, off =>
    if off + 8 ≤ buf.length ∧ 0 ≤ lenAt buf off ∧ off + 8 + lenAt buf off ≤ buf.length then
      recordAt buf k (off + 8 + (lenAt buf off).toNat)
    else none

/-- The record at `off` does not lead back into the bytes before its piece. -/
def LeadsOn (buf : List UInt8) (off : ℕ) : Prop :=
  off + 8 ≤ buf.length → 0 ≤ lenAt buf off ∨ off + 8 + lenAt buf off < 0

variable {M : Machine} {F : Type} (ops : FloatOps F)

/-! ## One record -/

theorem lt_of_fits {n : ℕ} (h : n < 2 ^ (M.width - 1)) : n + 2 ^ (M.width - 1) < 2 ^ M.width := by
  have hwidth := M.le_width
  have htwo : 2 ^ M.width = 2 * 2 ^ (M.width - 1) := by
    rw [← pow_succ', show M.width - 1 + 1 = M.width by omega]
  omega

theorem two_pow_le : 2 ^ 31 ≤ 2 ^ (M.width - 1) := by
  have hwidth := M.le_width
  exact Nat.pow_le_pow_right (by decide) (by omega)

/-- A word is read where the buffer holds it. -/
theorem rdWord_eq (buf : Buffer M) {off : ℕ} (hoff : off ≤ buf.1.length + 4) :
    rdWord M.strict buf.1 off = if off + 4 ≤ buf.1.length then
      .ok (UInt32.ofNat (Bytes.toNat (Bytes.slice buf.1 off 4))) else .err .truncated := by
  have hlt := lt_of_fits buf.2
  have hpow := two_pow_le (M := M)
  have hstop : M.strict.add off 4 = some (off + 4) := Machine.add_of_lt (by
    rw [Machine.width_strict]
    omega)
  rw [rdWord, hstop, Outcome.unwrap_some, Outcome.ok_bind]
  by_cases hread : off + 4 ≤ buf.1.length
  · rw [if_neg (by omega), if_pos hread, rdU32_eq hread]
    rfl
  · rw [if_pos (by omega), if_neg hread]

/-- A length as a word. -/
theorem asUsize_of_nonneg {len : ℤ} (h : 0 ≤ len) (hlt : len < 2 ^ 31) :
    asUsize M.strict len = len.toNat := by
  have hpow := two_pow_le (M := M)
  have hword := lt_of_fits (M := M) (n := 0) (Nat.two_pow_pos _)
  rw [asUsize, Machine.width_strict, Int.emod_eq_of_lt h]
  have hcast : (2 ^ 31 : ℤ) ≤ 2 ^ M.width := by
    exact_mod_cast hpow.trans (by omega)
  omega

/-- A negative length is a number of the upper half of the words. -/
theorem asUsize_of_neg {len : ℤ} (h : len < 0) (hlt : -2 ^ 31 ≤ len) :
    (asUsize M.strict len : ℤ) = 2 ^ M.width + len := by
  have hpow := two_pow_le (M := M)
  have hword := lt_of_fits (M := M) (n := 0) (Nat.two_pow_pos _)
  have hcast : (2 ^ 31 : ℤ) ≤ 2 ^ M.width := by
    exact_mod_cast hpow.trans (by omega)
  have hmod : len % 2 ^ M.width = 2 ^ M.width + len := by
    rw [← Int.add_emod_right, Int.emod_eq_of_lt (by omega) (by omega)]
    omega
  rw [asUsize, Machine.width_strict, hmod, Int.toNat_of_nonneg (by omega)]

/-- **What becomes of a record**: it is read, or the file is too short for it, or its length
leads back and the end of the piece overflows. -/
theorem readRecord_spec (buf : Buffer M) {off : ℕ} (hoff : off ≤ buf.1.length) :
    readRecord M.strict ops buf.1 off =
      if buf.1.length < off + 8 then .err .truncated
      else if lenAt buf.1 off < 0 then
        if off + 8 + lenAt buf.1 off < 0 then .err .truncated else .panic
      else if off + 8 + lenAt buf.1 off ≤ buf.1.length then
        .ok (ops.ofBits (UInt32.ofNat (Bytes.toNat (Bytes.slice buf.1 off 4))),
          Bytes.slice buf.1 (off + 8) (lenAt buf.1 off).toNat,
          off + 8 + (lenAt buf.1 off).toNat)
      else .err .truncated := by
  -- the length is added to the position in words of the machine
  have hlt := lt_of_fits buf.2
  have hpow := two_pow_le (M := M)
  have hadd : ∀ {a b : ℕ}, a + b < 2 ^ M.width → M.strict.add a b = some (a + b) :=
    fun h => Machine.add_of_lt h
  have hlow : -2 ^ 31 ≤ lenAt buf.1 off := Int32.le_toInt _
  have hhigh : lenAt buf.1 off < 2 ^ 31 := Int32.toInt_lt _
  rw [readRecord, rdWord_eq buf (by omega)]
  -- the score
  by_cases hscore : off + 4 ≤ buf.1.length
  · rw [if_pos hscore, Outcome.ok_bind, hadd (by omega), Outcome.unwrap_some, Outcome.ok_bind,
      rdWord_eq buf (by omega)]
    -- the length
    by_cases hlen : off + 4 + 4 ≤ buf.1.length
    · rw [if_pos hlen, Outcome.ok_bind, hadd (by omega), Outcome.unwrap_some, Outcome.ok_bind,
        if_neg (show ¬ buf.1.length < off + 8 by omega)]
      have hat : (UInt32.ofNat (Bytes.toNat (Bytes.slice buf.1 (off + 4) 4))).toInt32.toInt =
        lenAt buf.1 off := rfl
      rw [hat, show off + 4 + 4 = off + 8 from rfl]
      generalize lenAt buf.1 off = len at hlow hhigh ⊢
      dsimp only
      -- a negative length is a large one
      by_cases hneg : len < 0
      · have hword := asUsize_of_neg (M := M) hneg hlow
        have hpow' : (2 ^ 31 : ℤ) ≤ 2 ^ (M.width - 1) := by exact_mod_cast hpow
        have hlt' : (buf.1.length : ℤ) + 2 ^ (M.width - 1) < 2 ^ M.width := by exact_mod_cast hlt
        have hcast : ((2 ^ M.width : ℕ) : ℤ) = 2 ^ M.width := by norm_cast
        rw [if_pos hneg]
        by_cases hback : off + 8 + len < 0
        · rw [if_pos hback, hadd (by omega), Outcome.unwrap_some, Outcome.ok_bind,
            if_pos (by omega)]
        · -- the end of the piece is past the last word
          have hover : M.strict.add (off + 8) (asUsize M.strict len) = none := by
            have hbig : ¬ off + 8 + asUsize M.strict len < 2 ^ M.strict.width := by
              rw [Machine.width_strict]
              omega
            rw [Machine.add, Machine.fit, if_neg hbig]
            rfl
          rw [if_neg hback, hover]
          rfl
      · have hword := asUsize_of_nonneg (M := M) (by omega : 0 ≤ len) hhigh
        have hstop : M.strict.add (off + 8) len.toNat = some (off + 8 + len.toNat) :=
          hadd (by omega)
        rw [if_neg hneg]
        simp only [hword, hstop, Outcome.unwrap_some, Outcome.ok_bind]
        -- the piece
        by_cases hfits : off + 8 + len ≤ buf.1.length
        · rw [if_pos hfits, if_neg (by omega), Nat.add_sub_cancel_left]
          rfl
        · rw [if_neg hfits, if_pos (by omega)]
    · rw [if_neg hlen, if_pos (by omega)]
      rfl
  · rw [if_neg hscore, if_pos (by omega)]
    rfl

/-! ## All records -/

theorem recordAt_succ_of {buf : List UInt8} {off : ℕ} (k : ℕ) (h : off + 8 ≤ buf.length)
    (hlen : 0 ≤ lenAt buf off) (hfits : off + 8 + lenAt buf off ≤ buf.length) :
    recordAt buf (k + 1) off = recordAt buf k (off + 8 + (lenAt buf off).toNat) :=
  if_pos ⟨h, hlen, hfits⟩

/-- **The loop returns** exactly when every record that it comes to leads on. -/
theorem readRecords_returns_iff (buf : Buffer M) (n : ℕ) {off : ℕ} (hoff : off ≤ buf.1.length) :
    (readRecords M.strict ops buf.1 n off).Returns ↔
      ∀ k < n, ∀ o, recordAt buf.1 k off = some o → LeadsOn buf.1 o := by
  induction n generalizing off with
  | zero => exact ⟨fun _ k hk => absurd hk (Nat.not_lt_zero k), fun _ => trivial⟩
  | succ n ih =>
    -- a record that ends the loop with an error is the last one
    have hlast : LeadsOn buf.1 off → (∀ k, recordAt buf.1 (k + 1) off = none) →
        ∀ k < n + 1, ∀ o, recordAt buf.1 k off = some o → LeadsOn buf.1 o := by
      intro hleads hnone k _ o ho
      cases k with
      | zero => exact Option.some_inj.mp ho ▸ hleads
      | succ k =>
        rw [hnone k] at ho
        cases ho
    rw [readRecords, readRecord_spec ops buf hoff]
    split_ifs with hshort hneg hback hfits
    · refine ⟨fun _ => hlast (fun h => by omega) fun k => if_neg (by omega), fun _ => trivial⟩
    · refine ⟨fun _ => hlast (fun _ => Or.inr hback) fun k => if_neg (by omega), fun _ => trivial⟩
    · refine ⟨fun h => h.elim, fun h => ?_⟩
      have hleads := h 0 (Nat.succ_pos n) off rfl (by omega)
      omega
    · have hnext := fun k => recordAt_succ_of k (by omega) (not_lt.mp hneg) hfits
      rw [Outcome.ok_bind, Outcome.returns_bind]
      constructor
      · rintro ⟨hrest, -⟩ k hk o ho
        cases k with
        | zero =>
          rw [← Option.some_inj.mp ho]
          exact fun _ => Or.inl (not_lt.mp hneg)
        | succ k =>
          rw [hnext k] at ho
          exact (ih (by omega)).mp hrest k (by omega) o ho
      · intro h
        refine ⟨(ih (by omega)).mpr fun k hk o ho => ?_, fun _ _ => trivial⟩
        exact h (k + 1) (by omega) o ((hnext k).trans ho)
    · refine ⟨fun _ => hlast (fun _ => Or.inl (not_lt.mp hneg)) fun k => if_neg (by omega),
        fun _ => trivial⟩

/-- The vectors that are asked for can be made. -/
def HasRoom (M : Machine) (vocabSize : ℕ) : Prop := vocabSize * vecBytes M < 2 ^ (M.width - 1)

theorem withCapacity_vec {n : ℕ} (h : HasRoom M n) :
    withCapacity M.strict (vecBytes M.strict) n = .ok () := if_pos h

theorem withCapacity_vec_panic {n : ℕ} (h : ¬ HasRoom M n) :
    withCapacity M.strict (vecBytes M.strict) n = .panic := if_neg h

theorem withCapacity_four {n : ℕ} (h : HasRoom M n) : withCapacity M.strict 4 n = .ok () := by
  have hwidth := M.le_width
  have hbytes : n * 4 ≤ n * vecBytes M := Nat.mul_le_mul_left n (by rw [vecBytes]; omega)
  exact if_pos (hbytes.trans_lt h)

/-- **The parser returns** exactly when the file is cut off at once, or there is room for
the vocabulary and every record that is come to leads on. -/
theorem fromBytes_returns_iff (buf : Buffer M) (vocabSize : ℕ) :
    (fromBytes M.strict ops buf.1 vocabSize).Returns ↔ (4 ≤ buf.1.length →
      HasRoom M vocabSize ∧
        ∀ k < vocabSize, ∀ o, recordAt buf.1 k 4 = some o → LeadsOn buf.1 o) := by
  rw [fromBytes, rdWord_eq buf (by omega)]
  by_cases hlen : 0 + 4 ≤ buf.1.length
  · rw [if_pos hlen, Outcome.ok_bind]
    by_cases hroom : HasRoom M vocabSize
    · have hrecords := readRecords_returns_iff ops buf vocabSize (show 4 ≤ buf.1.length by omega)
      rw [withCapacity_vec hroom, Outcome.ok_bind, withCapacity_four hroom, Outcome.ok_bind,
        Outcome.returns_bind, hrecords]
      constructor
      · rintro ⟨h, -⟩ -
        exact ⟨hroom, h⟩
      · intro h
        refine ⟨(h (by omega)).2, fun records hok => ?_⟩
        split_ifs <;> trivial
    · rw [withCapacity_vec_panic hroom]
      exact ⟨fun h => h.elim, fun h => hroom (h (by omega)).1⟩
  · rw [if_neg hlen]
    exact ⟨fun _ h => absurd h (by omega), fun _ => trivial⟩

end Tokenizer

/-! ## Writing -/

/-- `BPE` of `bpe.py`: tokens and scores, each score by its `f32`. -/
structure Bpe where
  tokens : List (List UInt8)
  scores : List UInt32

namespace Bpe

/-- `struct.pack("<i", n)`, for a length. -/
def packI32 (n : ℕ) : Option (List UInt8) := if n < 2 ^ 31 then some (putI32 n) else none

/-- What the file says of a token. -/
def row (t : List UInt8) (s : UInt32) : Option (List UInt8) := do
  let len ← packI32 t.length
  some (Bytes.ofNat 4 s.toNat ++ len ++ t)

/-- `write_tokenizer_bin`. -/
def writeTokenizerBin (b : Bpe) : Option (List UInt8) := do
  let maxLen ← (b.tokens.map List.length).max?
  let head ← packI32 maxLen
  let rows ← (b.tokens.zip b.scores).mapM fun p => row p.1 p.2
  some (head ++ rows.flatten)

/-- The records of the file: pieces and scores. -/
def records (b : Bpe) : List (List UInt8 × UInt32) := b.tokens.zip b.scores

/-- The bytes of a record. -/
def rowBytes (p : List UInt8 × UInt32) : List UInt8 :=
  Bytes.ofNat 4 p.2.toNat ++ putI32 p.1.length ++ p.1

theorem row_eq_some {p : List UInt8 × UInt32} {bytes : List UInt8} (h : row p.1 p.2 = some bytes) :
    p.1.length < 2 ^ 31 ∧ bytes = rowBytes p := by
  obtain ⟨len, hlen, h⟩ := Option.bind_eq_some_iff.mp h
  rw [packI32] at hlen
  split_ifs at hlen with hshort
  rw [← Option.some_inj.mp h, ← Option.some_inj.mp hlen]
  exact ⟨hshort, rfl⟩

theorem mapM_row {ps : List (List UInt8 × UInt32)} :
    ∀ {rows : List (List UInt8)}, ps.mapM (fun p => row p.1 p.2) = some rows →
      (∀ p ∈ ps, p.1.length < 2 ^ 31) ∧ rows.flatten = ps.flatMap rowBytes := by
  induction ps with
  | nil =>
    intro rows h
    rw [← Option.some_inj.mp h]
    exact ⟨fun p hp => absurd hp List.not_mem_nil, rfl⟩
  | cons p ps ih =>
    intro rows h
    rw [List.mapM_cons] at h
    obtain ⟨bytes, hbytes, h⟩ := Option.bind_eq_some_iff.mp h
    obtain ⟨rest, hrest, h⟩ := Option.bind_eq_some_iff.mp h
    obtain ⟨hshort, hflat⟩ := ih hrest
    obtain ⟨hlen, rfl⟩ := row_eq_some hbytes
    rw [← Option.some_inj.mp h, List.flatten_cons, hflat]
    refine ⟨fun q hq => ?_, rfl⟩
    rcases List.mem_cons.mp hq with rfl | hq
    · exact hlen
    · exact hshort q hq

/-- A file that is written is a head of four bytes and the bytes of each record. -/
theorem writeTokenizerBin_eq {b : Bpe} {file : List UInt8} (h : b.writeTokenizerBin = some file) :
    ∃ head : List UInt8, head.length = 4 ∧ (∀ p ∈ b.records, p.1.length < 2 ^ 31) ∧
      file = head ++ b.records.flatMap rowBytes := by
  obtain ⟨maxLen, -, h⟩ := Option.bind_eq_some_iff.mp h
  obtain ⟨head, hhead, h⟩ := Option.bind_eq_some_iff.mp h
  obtain ⟨rows, hrows, h⟩ := Option.bind_eq_some_iff.mp h
  obtain ⟨hshort, hflat⟩ := mapM_row hrows
  refine ⟨head, ?_, hshort, ?_⟩
  · rw [packI32] at hhead
    split_ifs at hhead
    rw [← Option.some_inj.mp hhead]
    rfl
  · rw [← Option.some_inj.mp h, hflat]
    rfl

end Bpe

section RoundTrip

variable {M : Machine} {F : Type} (ops : FloatOps F)

open Tokenizer Bpe

/-- A record that was written is read, and the offset moves behind it. -/
theorem readRecord_row {buf : Buffer M} {pre post : List UInt8} {p : List UInt8 × UInt32}
    (hshort : p.1.length < 2 ^ 31) (hbuf : buf.1 = pre ++ (rowBytes p ++ post)) :
    readRecord M.strict ops buf.1 pre.length =
      .ok (ops.ofBits p.2, p.1, (pre ++ rowBytes p).length) := by
  have hscoreLen : (Bytes.ofNat 4 p.2.toNat).length = 4 := Bytes.length_ofNat _ _
  have hputLen : (putI32 p.1.length).length = 4 := Bytes.length_ofNat _ _
  have hrow : (rowBytes p).length = 8 + p.1.length := by
    rw [rowBytes, List.length_append, List.length_append, hscoreLen, hputLen]
  have htotal : buf.1.length = pre.length + (8 + p.1.length + post.length) := by
    rw [hbuf, List.length_append, List.length_append, hrow]
  have hscore : Bytes.slice buf.1 pre.length 4 = Bytes.ofNat 4 p.2.toNat := by
    rw [hbuf, rowBytes, List.append_assoc, List.append_assoc]
    exact Bytes.slice_middle rfl hscoreLen
  have hlenBytes : Bytes.slice buf.1 (pre.length + 4) 4 = putI32 p.1.length := by
    rw [hbuf, rowBytes, List.append_assoc, List.append_assoc, ← List.append_assoc]
    exact Bytes.slice_middle (by rw [List.length_append, hscoreLen]) hputLen
  have hpiece : Bytes.slice buf.1 (pre.length + 8) p.1.length = p.1 := by
    rw [hbuf, rowBytes, List.append_assoc, ← List.append_assoc]
    exact Bytes.slice_middle (by
      rw [List.length_append, List.length_append, hscoreLen, hputLen]) rfl
  have hlen : lenAt buf.1 pre.length = p.1.length := by
    rw [lenAt, hlenBytes, putI32, Bytes.toNat_ofNat (by omega), UInt32.toInt32_ofNat',
      Int32.toInt_ofNat_of_lt hshort]
  have hscoreEq : UInt32.ofNat (Bytes.toNat (Bytes.ofNat 4 p.2.toNat)) = p.2 := by
    rw [Bytes.toNat_ofNat p.2.toNat_lt, UInt32.ofNat_toNat]
  rw [readRecord_spec ops buf (by omega), hlen, if_neg (by omega), if_neg (by omega),
    if_pos (by omega), Int.toNat_natCast, hscore, hpiece, hscoreEq, List.length_append, hrow,
    Nat.add_assoc]

/-- **Records are read back**, wherever they stand. -/
theorem readRecords_rows {records : List (List UInt8 × UInt32)}
    (hshort : ∀ p ∈ records, p.1.length < 2 ^ 31) :
    ∀ (buf : Buffer M) (pre : List UInt8), buf.1 = pre ++ records.flatMap rowBytes →
      readRecords M.strict ops buf.1 records.length pre.length =
        .ok (records.map fun p => (ops.ofBits p.2, p.1)) := by
  induction records with
  | nil => exact fun _ _ _ => rfl
  | cons p records ih =>
    intro buf pre hbuf
    have hrecord := readRecord_row ops (hshort p List.mem_cons_self) hbuf
    have hrest := ih (fun q hq => hshort q (List.mem_cons_of_mem p hq)) buf (pre ++ rowBytes p)
      (by rw [hbuf, List.flatMap_cons, List.append_assoc])
    rw [List.length_cons, readRecords, hrecord, Outcome.ok_bind]
    simp only [hrest, Outcome.ok_bind, List.map_cons]

/-- **Round trip of the file.** -/
theorem fromBytes_writeTokenizerBin {b : Bpe} {buf : Buffer M}
    (hfile : b.writeTokenizerBin = some buf.1) (hroom : HasRoom M b.records.length) :
    ∃ t, fromBytes M.strict ops buf.1 b.records.length = .ok t ∧
      t.vocab = b.records.map Prod.fst ∧ t.scores = b.records.map fun p => ops.ofBits p.2 := by
  obtain ⟨head, hhead, hshort, hbuf⟩ := writeTokenizerBin_eq hfile
  have hlen : 0 + 4 ≤ buf.1.length := by
    rw [hbuf, List.length_append, hhead]
    omega
  have hrecords := readRecords_rows ops hshort buf head hbuf
  rw [hhead] at hrecords
  rw [fromBytes, rdWord_eq buf (by omega), if_pos hlen, Outcome.ok_bind, withCapacity_vec hroom,
    Outcome.ok_bind, withCapacity_four hroom, Outcome.ok_bind, hrecords, Outcome.ok_bind,
    if_neg (by rw [List.length_map]; exact not_not_intro rfl)]
  refine ⟨_, rfl, ?_, ?_⟩
  · exact List.map_map
  · exact List.map_map

end RoundTrip

/-! ## The contract -/

namespace Tokenizer

/-- The parser returns, with no overflow and no access out of bounds; and of a file that was
written for so many tokens it returns these tokens and scores. -/
def ReadsFile (M : Machine) {F : Type} (ops : FloatOps F) (buf : Buffer M) (vocabSize : ℕ) :
    Prop :=
  (fromBytes M.strict ops buf.1 vocabSize).Returns ∧
    ∀ b : Bpe, b.writeTokenizerBin = some buf.1 → b.records.length = vocabSize →
      ∃ t, fromBytes M.strict ops buf.1 vocabSize = .ok t ∧
        t.vocab = b.records.map Prod.fst ∧ t.scores = b.records.map fun p => ops.ofBits p.2

/-- **When a tokenizer file is read**: there is room for the vocabulary, and no record that
the parser comes to has a negative length that leads back into the bytes before its piece;
or the file does not even have its first four bytes. -/
theorem readsFile_iff (M : Machine) {F : Type} (ops : FloatOps F) (buf : Buffer M)
    (vocabSize : ℕ) : ReadsFile M ops buf vocabSize ↔ (4 ≤ buf.1.length →
      HasRoom M vocabSize ∧
        ∀ k < vocabSize, ∀ o, recordAt buf.1 k 4 = some o → LeadsOn buf.1 o) := by
  constructor
  · rintro ⟨hreturns, -⟩
    exact (fromBytes_returns_iff ops buf vocabSize).mp hreturns
  · intro h
    refine ⟨(fromBytes_returns_iff ops buf vocabSize).mpr h, ?_⟩
    rintro b hfile rfl
    obtain ⟨head, hhead, -, hbuf⟩ := Bpe.writeTokenizerBin_eq hfile
    have hlen : 4 ≤ buf.1.length := by
      rw [hbuf, List.length_append, hhead]
      omega
    exact fromBytes_writeTokenizerBin ops hfile (h hlen).1

/-- A score, and a length of minus one. -/
def badLength : List UInt8 := [6, 0, 0, 0, 0, 0, 0, 0, 0xff, 0xff, 0xff, 0xff]

/-- **A length of minus one**: the end of the piece overflows. -/
theorem badLength_overflows :
    ¬ (fromBytes usize32.strict zeroOps badLength 1).Returns := by
  decide

end Tokenizer

end TinyLlm
