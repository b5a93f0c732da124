/-
# The layout of a checkpoint

A file in the format is the header and then its pieces, one after the other.  The reader
computes the offsets of the groups by a walk over the sizes; when the whole file fits in a
machine word the walk gives the sums of the sizes (`walk_eq`), and a tensor that is cut out
at its offset is the piece that stands there (`tensor_eq`).

Both writers, `writeV2` and the export of the training code, produce files of this kind:
`parse_writeV2` is the round trip, and `exportV2_layout` puts every piece of the export
where `writeV2` puts it.
-/
import Mathlib.Algebra.BigOperators.Group.List.Basic
import Mathlib.Algebra.Order.BigOperators.Group.List
import PySpell.Checkpoint

open Checked

namespace TinyLlm

/-! ## Sizes -/

namespace Config

variable (c : Config)

/-- The width of a key vector, without overflow. -/
def kvWidth : ℕ := c.dim * c.nKvHeads / c.nHeads

/-- The bytes of a tensor: its values and its scales. -/
def tensorBytes (size : ℕ) : ℕ := size + size / c.groupSize * 4

/-- The groups of tensors in front of the classifier: how many, and how large. -/
def shapes : List (ℕ × ℕ) :=
  [(1, c.vocabSize * c.dim), (c.nLayers, c.dim * c.dim), (c.nLayers, c.dim * c.kvWidth),
    (c.nLayers, c.dim * c.kvWidth), (c.nLayers, c.dim * c.dim), (c.nLayers, c.dim * c.hiddenDim),
    (c.nLayers, c.hiddenDim * c.dim), (c.nLayers, c.dim * c.hiddenDim)]

/-- The bytes of a group. -/
def groupBytes (shape : ℕ × ℕ) : ℕ := shape.1 * c.tensorBytes shape.2

/-- The bytes of the norm weights of all layers. -/
def normBytes : ℕ := c.nLayers * c.dim * 4

/-- Where the quantized tensors start. -/
def payload : ℕ := headerBytes + c.normBytes + c.normBytes + c.dim * 4

/-- Where the `i`-th group starts. -/
def offset (i : ℕ) : ℕ := c.payload + ((c.shapes.take i).map c.groupBytes).sum

/-- The size of the whole file. -/
def fileSize : ℕ :=
  c.offset 8 + if c.sharedClassifier then 0 else c.groupBytes (1, c.dim * c.vocabSize)

/-- Later tensors stand further back. -/
theorem offset_mono {i j : ℕ} (h : i ≤ j) : c.offset i ≤ c.offset j := by
  obtain ⟨k, rfl⟩ := Nat.exists_eq_add_of_le h
  rw [offset, offset, List.take_add, List.map_append, List.sum_append]
  omega

/-- A tensor group begins where the one before it ends. -/
theorem offset_succ {i : ℕ} {shape : ℕ × ℕ} (h : c.shapes[i]? = some shape) :
    c.offset (i + 1) = c.offset i + c.groupBytes shape := by
  rw [offset, offset, List.take_add_one, h, Option.toList_some, List.map_append, List.sum_append]
  simp [Nat.add_assoc]

/-- Every group begins within the file. -/
theorem offset_le_fileSize {i : ℕ} (h : i ≤ 8) : c.offset i ≤ c.fileSize :=
  (c.offset_mono h).trans (Nat.le_add_right _ _)

/-- So does the payload. -/
theorem payload_le_fileSize : c.payload ≤ c.fileSize :=
  (Nat.le_add_right _ _).trans (c.offset_le_fileSize (Nat.zero_le 8))

/-- A group of the list ends before the file does. -/
theorem offset_add_le {i : ℕ} {shape : ℕ × ℕ} (h : c.shapes[i]? = some shape) :
    c.offset i + c.groupBytes shape ≤ c.fileSize := by
  rw [← c.offset_succ h]
  have hi : i < 8 := (List.getElem?_eq_some_iff.mp h).1
  exact c.offset_le_fileSize hi

/-- A tensor of a group that is not empty is not larger than the file. -/
theorem size_le {i : ℕ} {shape : ℕ × ℕ} (h : c.shapes[i]? = some shape) (hpos : 0 < shape.1) :
    shape.2 ≤ c.fileSize := by
  have hgroup : c.tensorBytes shape.2 ≤ c.groupBytes shape := Nat.le_mul_of_pos_left _ hpos
  have hend := c.offset_add_le h
  have hsize : shape.2 ≤ c.tensorBytes shape.2 := Nat.le_add_right _ _
  omega

end Config

/-- The view of a buffer with every group at its place. -/
def Model.laidOut (c : Config) (buf : List UInt8) : Model :=
  let group i count size : QGroup := ⟨c.offset i, count, size, c.groupSize⟩
  { config := c
    buf
    rmsAtt := headerBytes
    rmsFfn := headerBytes + c.normBytes
    rmsFinal := headerBytes + c.normBytes + c.normBytes
    qTokens := group 0 1 (c.vocabSize * c.dim)
    wq := group 1 c.nLayers (c.dim * c.dim)
    wk := group 2 c.nLayers (c.dim * c.kvWidth)
    wv := group 3 c.nLayers (c.dim * c.kvWidth)
    wo := group 4 c.nLayers (c.dim * c.dim)
    w1 := group 5 c.nLayers (c.dim * c.hiddenDim)
    w2 := group 6 c.nLayers (c.hiddenDim * c.dim)
    w3 := group 7 c.nLayers (c.dim * c.hiddenDim)
    wcls :=
      if c.sharedClassifier then group 0 1 (c.vocabSize * c.dim)
      else group 8 1 (c.dim * c.vocabSize) }

/-! ## The walk -/

section Walk

variable {M : Machine} {c : Config}

/-- The machine computes the bytes of the scales when a tensor fits its words. -/
theorem QGroup.scaleBytes_eq {g : QGroup} (hgs : 0 < g.gs)
    (h : g.sizeEach + g.sizeEach / g.gs * 4 < 2 ^ M.width) :
    g.scaleBytes M = some (g.sizeEach / g.gs * 4) := by
  rw [QGroup.scaleBytes, div, if_neg hgs.ne', Option.bind_eq_bind, Option.bind_some,
    Machine.mul_of_lt ((Nat.le_add_left _ _).trans_lt h)]

/-- So it does the stride. -/
theorem QGroup.stride_eq {g : QGroup} (hgs : 0 < g.gs)
    (h : g.sizeEach + g.sizeEach / g.gs * 4 < 2 ^ M.width) :
    g.stride M = some (g.sizeEach + g.sizeEach / g.gs * 4) := by
  rw [QGroup.stride, QGroup.scaleBytes_eq hgs h, Option.bind_eq_bind, Option.bind_some,
    Machine.add_of_lt h]

/-- The walk goes over a group that fits. -/
theorem Model.take_eq (hgs : 0 < c.groupSize) {count size off : ℕ} (hcount : 0 < count)
    (h : off + c.groupBytes (count, size) < 2 ^ M.width) :
    Model.take M c.groupSize count size off =
      some (⟨off, count, size, c.groupSize⟩, off + c.groupBytes (count, size)) := by
  have hle : c.tensorBytes size ≤ c.groupBytes (count, size) := Nat.le_mul_of_pos_left _ hcount
  have hstride : (QGroup.mk off count size c.groupSize).stride M = some (c.tensorBytes size) :=
    QGroup.stride_eq hgs (by unfold Config.tensorBytes at hle; dsimp only; omega)
  have hmul : c.tensorBytes size * count = c.groupBytes (count, size) := Nat.mul_comm _ _
  rw [Model.take, QGroup.total, hstride]
  dsimp only [Option.bind_eq_bind, Option.bind_some]
  rw [Machine.mul_of_lt (by omega), Option.bind_some, hmul, Machine.add_of_lt h]
  rfl

/-- **The walk over a file that fits in a word** gives the offsets of the layout. -/
theorem Model.walk_eq (hgs : 0 < c.groupSize) (hlayers : 0 < c.nLayers)
    (hfile : c.fileSize < 2 ^ M.width) (buf : List UInt8) :
    Model.walk M c c.kvWidth buf = some (Model.laidOut c buf, c.fileSize) := by
  have hpayload := c.payload_le_fileSize
  unfold Config.payload Config.normBytes at hpayload
  have hnorm : c.nLayers * c.dim ≤ c.nLayers * c.dim * 4 := Nat.le_mul_of_pos_right _ (by decide)
  have htake {i count size : ℕ} (h : c.shapes[i]? = some (count, size)) (hcount : 0 < count) :
      Model.take M c.groupSize count size (c.offset i) =
        some (⟨c.offset i, count, size, c.groupSize⟩, c.offset (i + 1)) := by
    rw [c.offset_succ h]
    exact Model.take_eq hgs hcount ((c.offset_add_le h).trans_lt hfile)
  have hmul {i count a b : ℕ} (h : c.shapes[i]? = some (count, a * b)) (hcount : 0 < count) :
      M.mul a b = some (a * b) :=
    Machine.mul_of_lt ((c.size_le h hcount).trans_lt hfile)
  have hbase : c.payload = c.offset 0 := rfl
  unfold Model.walk
  -- the norms
  refine bind_eq_of_some (Machine.mul_of_lt (by omega)) ?_
  refine bind_eq_of_some (Machine.mul_of_lt (by omega)) ?_
  refine bind_eq_of_some (Machine.add_of_lt (by omega)) ?_
  refine bind_eq_of_some (Machine.mul_of_lt (by omega)) ?_
  refine bind_eq_of_some (Machine.mul_of_lt (by omega)) ?_
  refine bind_eq_of_some (Machine.add_of_lt (by omega)) ?_
  refine bind_eq_of_some (Machine.mul_of_lt (by omega)) ?_
  refine bind_eq_of_some (Machine.add_of_lt (by omega)) ?_
  -- the groups
  refine bind_eq_of_some (hmul (i := 0) rfl Nat.one_pos) ?_
  refine bind_eq_of_some (htake (i := 0) rfl Nat.one_pos) ?_
  refine bind_eq_of_some (hmul (i := 1) rfl hlayers) ?_
  refine bind_eq_of_some (htake (i := 1) rfl hlayers) ?_
  refine bind_eq_of_some (hmul (i := 2) rfl hlayers) ?_
  refine bind_eq_of_some (htake (i := 2) rfl hlayers) ?_
  refine bind_eq_of_some (hmul (i := 3) rfl hlayers) ?_
  refine bind_eq_of_some (htake (i := 3) rfl hlayers) ?_
  refine bind_eq_of_some (hmul (i := 4) rfl hlayers) ?_
  refine bind_eq_of_some (htake (i := 4) rfl hlayers) ?_
  refine bind_eq_of_some (hmul (i := 5) rfl hlayers) ?_
  refine bind_eq_of_some (htake (i := 5) rfl hlayers) ?_
  refine bind_eq_of_some (hmul (i := 6) rfl hlayers) ?_
  refine bind_eq_of_some (htake (i := 6) rfl hlayers) ?_
  refine bind_eq_of_some (hmul (i := 7) rfl hlayers) ?_
  refine bind_eq_of_some (htake (i := 7) rfl hlayers) ?_
  -- the classifier
  by_cases hshared : c.sharedClassifier
  · refine (if_pos hshared).trans (bind_eq_of_some rfl ?_)
    rw [Model.laidOut, Config.fileSize, if_pos hshared, if_pos hshared]
    rfl
  · have hcls : c.offset 8 + c.groupBytes (1, c.dim * c.vocabSize) = c.fileSize := by
      rw [Config.fileSize, if_neg hshared]
    have hsize : c.dim * c.vocabSize ≤ c.groupBytes (1, c.dim * c.vocabSize) := by
      rw [Config.groupBytes, Nat.one_mul]
      exact Nat.le_add_right _ _
    have hlt : c.dim * c.vocabSize < 2 ^ M.width := by omega
    have htakeCls := Model.take_eq (M := M) hgs Nat.one_pos (hcls.trans_lt hfile)
    refine (if_neg hshared).trans (bind_eq_of_some (Machine.mul_of_lt hlt)
      (bind_eq_of_some htakeCls ?_))
    rw [Model.laidOut, hcls, if_neg hshared]
    rfl

end Walk

/-! ## The header -/

/-- A configuration that the format can hold. -/
structure Config.Valid (c : Config) : Prop where
  pos : ∀ v ∈ [c.dim, c.hiddenDim, c.nLayers, c.nHeads, c.nKvHeads, c.vocabSize, c.seqLen,
    c.groupSize], 0 < v
  fits : ∀ v ∈ [c.dim, c.hiddenDim, c.nLayers, c.nHeads, c.nKvHeads, c.vocabSize, c.seqLen,
    c.groupSize], v < 2 ^ 31
  heads : c.nHeads ∣ c.dim
  group : ∀ shape ∈ c.shapes, c.groupSize ∣ shape.2

/-- A resized buffer has the length that was asked for. -/
theorem length_resize (out : List UInt8) (n : ℕ) : (resize out n).length = n := by
  rw [resize, List.length_append, List.length_take, List.length_replicate]
  omega

/-- The header has its fixed length, whatever the numbers in it. -/
theorem length_header (c : Config) : (header c).length = headerBytes := length_resize _ _

/-- A number of the header is read back. -/
theorem rdI32_of_putI32 {buf : List UInt8} {off n : ℕ}
    (h : rdU32 buf off = some (UInt32.ofNat (Bytes.toNat (putI32 n)))) (hn : n < 2 ^ 31) :
    rdI32 buf off = some (n : ℤ) := by
  rw [putI32, Bytes.toNat_ofNat (by omega)] at h
  rw [rdI32, h, Option.bind_eq_bind, Option.bind_some, UInt32.toInt32_ofNat',
    Int32.toInt_ofNat_of_lt hn]

section Header

variable {M : Machine} {c : Config}

/-- The machine computes the width of the keys for a valid file. -/
theorem Config.Valid.kvDim_eq (hc : c.Valid) (hfile : c.fileSize < 2 ^ M.width) :
    c.kvDim M = some c.kvWidth := by
  have hheads : 0 < c.nHeads := hc.pos _ (by simp)
  have hlayers : 0 < c.nLayers := hc.pos _ (by simp)
  obtain ⟨size, hsize⟩ := hc.heads
  -- a head is not wider than the model, so the product is at most the size of `wk`
  have hkv : c.kvWidth = size * c.nKvHeads := by
    rw [kvWidth, hsize, Nat.mul_assoc, Nat.mul_div_cancel_left _ hheads]
  have hle : c.dim * c.nKvHeads ≤ c.dim * c.kvWidth := by
    rw [hkv]
    refine Nat.mul_le_mul_left _ (Nat.le_mul_of_pos_left _ ?_)
    refine Nat.pos_of_ne_zero fun h => ?_
    have hdim : 0 < c.dim := hc.pos _ (by simp)
    rw [hsize, h] at hdim
    exact hdim.ne rfl
  have hwk := (c.size_le (i := 2) rfl hlayers).trans_lt hfile
  rw [kvDim, Machine.mul_of_lt (hle.trans_lt hwk), Option.bind_eq_bind, Option.bind_some, div,
    if_neg hheads.ne']
  rfl

/-- The lengths that the reader checks are those of the layout. -/
theorem Model.lens_eq (hlayers : 0 < c.nLayers) (hfile : c.fileSize < 2 ^ M.width) :
    Model.lens M c c.kvWidth = some (c.shapes.map Prod.snd) := by
  have hmul {i count a b : ℕ} (h : c.shapes[i]? = some (count, a * b)) (hcount : 0 < count) :
      M.mul a b = some (a * b) :=
    Machine.mul_of_lt ((c.size_le h hcount).trans_lt hfile)
  rw [Model.lens, hmul (i := 0) rfl Nat.one_pos, hmul (i := 1) rfl hlayers,
    hmul (i := 2) rfl hlayers, hmul (i := 5) rfl hlayers, hmul (i := 6) rfl hlayers]
  rfl

/-- No tensor of a valid file is empty. -/
theorem Config.Valid.size_pos (hc : c.Valid) {shape : ℕ × ℕ} (h : shape ∈ c.shapes) :
    0 < shape.2 := by
  have hkv : 0 < c.kvWidth := by
    refine Nat.div_pos ?_ (hc.pos _ (by simp))
    exact (Nat.le_of_dvd (hc.pos _ (by simp)) hc.heads).trans
      (Nat.le_mul_of_pos_right _ (hc.pos _ (by simp)))
  have hdim : 0 < c.dim := hc.pos _ (by simp)
  have hhidden : 0 < c.hiddenDim := hc.pos _ (by simp)
  have hvocab : 0 < c.vocabSize := hc.pos _ (by simp)
  simp only [shapes, List.mem_cons, List.not_mem_nil, or_false] at h
  rcases h with rfl | rfl | rfl | rfl | rfl | rfl | rfl | rfl
  all_goals exact Nat.mul_pos (by assumption) (by assumption)

/-- The header is read back, whatever follows it. -/
theorem Model.parseHeader_eq (hc : c.Valid) (rest : List UInt8) :
    Model.parseHeader (header c ++ rest) = .ok c := by
  have hfield {off n : ℕ} (h : rdU32 (header c ++ rest) off =
      some (UInt32.ofNat (Bytes.toNat (putI32 n)))) (hn : n < 2 ^ 31) :
      (Outcome.unwrap (rdI32 (header c ++ rest) off) : Outcome ModelError ℤ) = .ok (n : ℤ) := by
    rw [rdI32_of_putI32 h hn]
    rfl
  have hmagic : (Outcome.unwrap (rdU32 (header c ++ rest) 0) : Outcome ModelError UInt32) =
      .ok MAGIC := rfl
  have hversion : (Outcome.unwrap (rdI32 (header c ++ rest) 4) : Outcome ModelError ℤ) =
      .ok VERSION := rfl
  have hshared : (Outcome.unwrap (header c ++ rest)[36]? : Outcome ModelError UInt8) =
      .ok c.sharedClassifier.toUInt8 := rfl
  have hlen : ¬ (header c ++ rest).length < headerBytes := by
    rw [List.length_append, length_header]
    omega
  have hbool : decide (c.sharedClassifier.toUInt8 ≠ 0) = c.sharedClassifier := by
    cases c.sharedClassifier <;> rfl
  have hpos := hc.pos
  simp only [List.forall_mem_cons, List.not_mem_nil, false_implies, implies_true, and_true] at hpos
  unfold Model.parseHeader
  rw [if_neg hlen, hmagic, Outcome.ok_bind, if_neg (not_not.mpr rfl), hversion,
    Outcome.ok_bind, if_neg (not_not.mpr rfl), hfield rfl (hc.fits c.dim (by simp)),
    Outcome.ok_bind, hfield rfl (hc.fits c.hiddenDim (by simp)), Outcome.ok_bind,
    hfield rfl (hc.fits c.nLayers (by simp)), Outcome.ok_bind,
    hfield rfl (hc.fits c.nHeads (by simp)), Outcome.ok_bind,
    hfield rfl (hc.fits c.nKvHeads (by simp)), Outcome.ok_bind,
    hfield rfl (hc.fits c.vocabSize (by simp)), Outcome.ok_bind,
    hfield rfl (hc.fits c.seqLen (by simp)), Outcome.ok_bind, hshared, Outcome.ok_bind,
    hfield rfl (hc.fits c.groupSize (by simp)), Outcome.ok_bind, if_neg (by omega), hbool]
  rfl

/-- **The reader accepts a file of the right size** and finds every group at its place. -/
theorem Model.parse_eq (hc : c.Valid) {rest : List UInt8}
    (hlen : (header c ++ rest).length = c.fileSize) (hfile : c.fileSize < 2 ^ M.width) :
    Model.parse M (header c ++ rest) = .ok (Model.laidOut c (header c ++ rest)) := by
  have hlayers : 0 < c.nLayers := hc.pos _ (by simp)
  have hgs : 0 < c.groupSize := hc.pos _ (by simp)
  have hany : (c.shapes.map Prod.snd).any (fun len => len = 0 || len % c.groupSize ≠ 0) =
      false := by
    rw [List.any_eq_false]
    intro len hmem
    obtain ⟨shape, hshape, rfl⟩ := List.mem_map.mp hmem
    have hpos := hc.size_pos hshape
    have hdvd := Nat.mod_eq_zero_of_dvd (hc.group shape hshape)
    simp [hdvd, hpos.ne']
  unfold Model.parse
  rw [Model.parseHeader_eq hc, Outcome.ok_bind,
    if_neg (not_not.mpr (Nat.mod_eq_zero_of_dvd hc.heads)), hc.kvDim_eq hfile,
    Outcome.unwrap_some, Outcome.ok_bind, Model.lens_eq hlayers hfile, Outcome.unwrap_some,
    Outcome.ok_bind, hany, if_neg Bool.false_ne_true, Model.walk_eq hgs hlayers hfile,
    Outcome.unwrap_some, Outcome.ok_bind]
  exact if_neg (hlen ▸ lt_irrefl _)

end Header

/-! ## Files -/

namespace QTensor

def bytes (t : QTensor) : List UInt8 := t.q ++ t.s

/-- A tensor of `size` numbers. -/
structure Fits (c : Config) (size : ℕ) (t : QTensor) : Prop where
  q : t.q.length = size
  s : t.s.length = size / c.groupSize * 4

/-- A tensor takes a byte for each weight and four for each scale. -/
theorem Fits.length {c : Config} {size : ℕ} {t : QTensor} (h : t.Fits c size) :
    t.bytes.length = c.tensorBytes size := by
  rw [bytes, List.length_append, h.q, h.s]
  rfl

end QTensor

/-- The bytes of a group of tensors. -/
def groupBytes (ts : List QTensor) : List UInt8 := ts.flatMap QTensor.bytes

/-- A group takes the bytes of its tensors. -/
theorem length_groupBytes {c : Config} {size : ℕ} {ts : List QTensor}
    (h : ∀ t ∈ ts, t.Fits c size) : (groupBytes ts).length = ts.length * c.tensorBytes size := by
  induction ts with
  | nil => exact (Nat.zero_mul _).symm
  | cons t ts ih =>
    rw [groupBytes, List.flatMap_cons, List.length_append, (h t List.mem_cons_self).length,
      List.length_cons, Nat.add_one_mul, Nat.add_comm]
    exact congrArg (· + _) (ih fun u hu => h u (List.mem_cons_of_mem t hu))

/-- What stands behind the header of a file. -/
structure Pieces where
  rmsAtt : List UInt8
  rmsFfn : List UInt8
  rmsFinal : List UInt8
  qTokens : QTensor
  wq : List QTensor
  wk : List QTensor
  wv : List QTensor
  wo : List QTensor
  w1 : List QTensor
  w2 : List QTensor
  w3 : List QTensor
  wcls : Option QTensor

namespace Pieces

/-- The groups in the order of the file. -/
def groups (p : Pieces) : List (List QTensor) :=
  [[p.qTokens], p.wq, p.wk, p.wv, p.wo, p.w1, p.w2, p.w3]

/-- The file. -/
def file (c : Config) (p : Pieces) : List UInt8 :=
  header c ++ (p.rmsAtt ++ p.rmsFfn ++ p.rmsFinal ++ p.groups.flatMap groupBytes ++
    p.wcls.elim [] QTensor.bytes)

/-- The pieces have the shapes that the configuration says. -/
structure Fits (c : Config) (p : Pieces) : Prop where
  rmsAtt : p.rmsAtt.length = c.normBytes
  rmsFfn : p.rmsFfn.length = c.normBytes
  rmsFinal : p.rmsFinal.length = c.dim * 4
  groups : List.Forall₂ (fun (shape : ℕ × ℕ) ts =>
    ts.length = shape.1 ∧ ∀ t ∈ ts, t.Fits c shape.2) c.shapes p.groups
  shared : p.wcls.isNone = c.sharedClassifier
  wcls : ∀ t ∈ p.wcls, t.Fits c (c.dim * c.vocabSize)

variable {c : Config} {p : Pieces}

/-- The groups have the sizes of the layout. -/
theorem Fits.length_groups (h : p.Fits c) :
    p.groups.map (fun ts => (groupBytes ts).length) = c.shapes.map c.groupBytes := by
  have hlen : ∀ {shapes : List (ℕ × ℕ)} {groups : List (List QTensor)},
      List.Forall₂ (fun (shape : ℕ × ℕ) ts =>
        ts.length = shape.1 ∧ ∀ t ∈ ts, t.Fits c shape.2) shapes groups →
      groups.map (fun ts => (groupBytes ts).length) = shapes.map c.groupBytes := by
    intro shapes groups h
    induction h with
    | nil => rfl
    | cons hhead _ ih =>
      rw [List.map_cons, List.map_cons, ih, length_groupBytes hhead.2, hhead.1]
      rfl
  exact hlen h.groups

/-- Everything in front of the `i`-th group. -/
def before (c : Config) (p : Pieces) (i : ℕ) : List UInt8 :=
  header c ++ (p.rmsAtt ++ p.rmsFfn ++ p.rmsFinal ++ (p.groups.take i).flatMap groupBytes)

/-- What is written before a group ends where the group begins. -/
theorem Fits.length_before (h : p.Fits c) (i : ℕ) : (p.before c i).length = c.offset i := by
  have hgroups : ((p.groups.take i).flatMap groupBytes).length =
      ((c.shapes.take i).map c.groupBytes).sum := by
    rw [List.length_flatMap, List.map_take, List.map_take]
    exact congrArg (fun l => (l.take i).sum) h.length_groups
  rw [before]
  simp only [List.length_append, length_header, h.rmsAtt, h.rmsFfn, h.rmsFinal, hgroups]
  rw [Config.offset, Config.payload]
  omega

/-- The file around its `i`-th group. -/
theorem file_eq {i : ℕ} {ts : List QTensor} (h : p.groups[i]? = some ts) :
    p.file c = p.before c i ++ groupBytes ts ++
      ((p.groups.drop (i + 1)).flatMap groupBytes ++ p.wcls.elim [] QTensor.bytes) := by
  obtain ⟨hi, rfl⟩ := List.getElem?_eq_some_iff.mp h
  have hsplit : p.groups.flatMap groupBytes = (p.groups.take i).flatMap groupBytes ++
      (groupBytes p.groups[i] ++ (p.groups.drop (i + 1)).flatMap groupBytes) := by
    rw [← List.flatMap_cons, ← List.flatMap_append, ← List.drop_eq_getElem_cons hi,
      List.take_append_drop]
  rw [file, before, hsplit]
  simp only [List.append_assoc]

/-- **The written file is as long as the layout says.** -/
theorem Fits.length_file (h : p.Fits c) : (p.file c).length = c.fileSize := by
  have hbefore := h.length_before 8
  have hfile : p.file c = p.before c 8 ++ p.wcls.elim [] QTensor.bytes := by
    rw [file, before]
    simp only [List.append_assoc]
    rfl
  have hshared := h.shared
  rw [hfile, List.length_append, hbefore, Config.fileSize]
  cases hcls : p.wcls with
  | none =>
    rw [hcls] at hshared
    have htrue : c.sharedClassifier = true := hshared.symm
    rw [if_pos htrue]
    rfl
  | some t =>
    rw [hcls] at hshared
    rw [if_neg (by rw [← hshared]; exact Bool.false_ne_true), Config.groupBytes, Nat.one_mul,
      ← (h.wcls t hcls).length]
    rfl

end Pieces

/-! ## Accessors -/

section Accessors

variable {M : Machine}

/-- What is written in the middle is what is read there. -/
theorem slice_append (pre p post : List UInt8) :
    slice (pre ++ p ++ post) pre.length (pre.length + p.length) = some p := by
  rw [slice, if_pos ⟨Nat.le_add_right _ _, by simp only [List.length_append]; omega⟩,
    List.append_assoc, List.drop_left, Nat.add_sub_cancel_left, List.take_left]

/-- The bytes of a group around its `l`-th tensor. -/
theorem groupBytes_eq {c : Config} {size : ℕ} {ts : List QTensor} (h : ∀ t ∈ ts, t.Fits c size)
    {l : ℕ} {t : QTensor} (ht : ts[l]? = some t) :
    ∃ pre post, groupBytes ts = pre ++ t.bytes ++ post ∧ pre.length = l * c.tensorBytes size := by
  obtain ⟨hl, rfl⟩ := List.getElem?_eq_some_iff.mp ht
  refine ⟨groupBytes (ts.take l), groupBytes (ts.drop (l + 1)), ?_, ?_⟩
  · rw [List.append_assoc]
    unfold groupBytes
    rw [← List.flatMap_cons, ← List.flatMap_append, ← List.drop_eq_getElem_cons hl,
      List.take_append_drop]
  · rw [length_groupBytes fun t ht => h t (List.mem_of_mem_take ht), List.length_take_of_le hl.le]

/-- **A tensor that is cut out is the one that stands there.** -/
theorem QGroup.tensor_eq {c : Config} (hgs : 0 < c.groupSize) {size : ℕ} {ts : List QTensor}
    (h : ∀ t ∈ ts, t.Fits c size) {pre post buf : List UInt8}
    (hbuf : buf = pre ++ groupBytes ts ++ post) (hlen : buf.length < 2 ^ M.width) {count l : ℕ}
    {t : QTensor} (ht : ts[l]? = some t) :
    (QGroup.mk pre.length count size c.groupSize).tensor M buf l = some t := by
  obtain ⟨left, right, hgroup, hleft⟩ := groupBytes_eq h ht
  have hfits := h t (List.mem_of_getElem? ht)
  have hbytes : t.bytes.length = size + size / c.groupSize * 4 := hfits.length
  have htotal : buf.length = pre.length + left.length + t.q.length + t.s.length + right.length +
      post.length := by
    rw [hbuf, hgroup, QTensor.bytes]
    simp only [List.length_append]
    omega
  have hq := hfits.q
  have hs := hfits.s
  have hskip : l * (size + size / c.groupSize * 4) = left.length := hleft.symm
  have hscales := QGroup.scaleBytes_eq (M := M) (g := ⟨pre.length, count, size, c.groupSize⟩) hgs
    (by dsimp only; omega)
  have hstride := QGroup.stride_eq (M := M) (g := ⟨pre.length, count, size, c.groupSize⟩) hgs
    (by dsimp only; omega)
  -- the values, then the scales behind them
  have hvalues : slice buf (pre.length + left.length) (pre.length + left.length + size) =
      some t.q := by
    have hsplit : buf = (pre ++ left) ++ t.q ++ (t.s ++ right ++ post) := by
      rw [hbuf, hgroup, QTensor.bytes]
      simp only [List.append_assoc]
    rw [hsplit, ← List.length_append, ← hq]
    exact slice_append _ _ _
  have hscale : slice buf (pre.length + left.length + size)
      (pre.length + left.length + size + size / c.groupSize * 4) = some t.s := by
    have hsplit : buf = (pre ++ left ++ t.q) ++ t.s ++ (right ++ post) := by
      rw [hbuf, hgroup, QTensor.bytes]
      simp only [List.append_assoc]
    rw [hsplit, ← hs, ← hq, ← List.length_append, ← List.length_append]
    exact slice_append _ _ _
  unfold QGroup.tensor
  refine bind_eq_of_some hstride ?_
  refine bind_eq_of_some (Machine.mul_of_lt (by dsimp only; omega)) ?_
  dsimp only
  rw [hskip]
  refine bind_eq_of_some (Machine.add_of_lt (by omega)) ?_
  refine bind_eq_of_some (Machine.add_of_lt (by omega)) ?_
  refine bind_eq_of_some hvalues ?_
  refine bind_eq_of_some (Machine.add_of_lt (by omega)) ?_
  refine bind_eq_of_some hscales ?_
  refine bind_eq_of_some (Machine.add_of_lt (by dsimp only; omega)) ?_
  exact bind_eq_of_some hscale rfl

/-- A piece of a part of the buffer. -/
theorem slice_within {pre p post buf : List UInt8} (hbuf : buf = pre ++ p ++ post) {off a n : ℕ}
    (hoff : off = pre.length) (h : a + n ≤ p.length) :
    slice buf (off + a) (off + a + n) = some (Bytes.slice p a n) := by
  have hsplit : buf = (pre ++ p.take a) ++ Bytes.slice p a n ++ (p.drop (a + n) ++ post) := by
    have hp : p = p.take a ++ (Bytes.slice p a n ++ p.drop (a + n)) := by
      rw [Bytes.slice, ← List.drop_drop, List.take_append_drop, List.take_append_drop]
    rw [hbuf]
    conv_lhs => rw [hp]
    simp only [List.append_assoc]
  have hstart : off + a = (pre ++ p.take a).length := by
    rw [List.length_append, List.length_take]
    omega
  have hcut := slice_append (pre ++ p.take a) (Bytes.slice p a n) (p.drop (a + n) ++ post)
  rwa [← hsplit, ← hstart, Bytes.length_slice h] at hcut

/-- The norm weights of a layer. -/
theorem Model.normRow_eq {m : Model} {pre norms post : List UInt8}
    (hbuf : m.buf = pre ++ norms ++ post) (hlen : m.buf.length < 2 ^ M.width) {base l : ℕ}
    (hbase : base = pre.length) (hnorms : norms.length = m.config.nLayers * m.config.dim * 4)
    (hl : l < m.config.nLayers) : m.normRow M base l =
      some (Bytes.slice norms (l * m.config.dim * 4) (m.config.dim * 4)) := by
  have hrow : l * m.config.dim * 4 + m.config.dim * 4 ≤ norms.length := by
    rw [hnorms, ← Nat.add_mul, ← Nat.add_one_mul]
    exact Nat.mul_le_mul_right 4 (Nat.mul_le_mul_right _ hl)
  have htotal : pre.length + norms.length ≤ m.buf.length := by
    rw [hbuf, List.length_append, List.length_append]
    exact Nat.le_add_right _ _
  unfold Model.normRow
  refine bind_eq_of_some (Machine.mul_of_lt (by omega)) ?_
  refine bind_eq_of_some (Machine.mul_of_lt (by omega)) ?_
  refine bind_eq_of_some (Machine.add_of_lt (by omega)) ?_
  refine bind_eq_of_some (Machine.mul_of_lt (by omega)) ?_
  refine bind_eq_of_some (Machine.add_of_lt (by omega)) ?_
  exact slice_within hbuf hbase hrow

/-! ### The embedding -/

/-- A word is read from its four bytes. -/
theorem rdU32_eq {buf : List UInt8} {off : ℕ} (h : off + 4 ≤ buf.length) :
    rdU32 buf off = some (UInt32.ofNat (Bytes.toNat (Bytes.slice buf off 4))) := by
  have hslice : Bytes.slice buf off 4 = [buf[off], buf[off + 1], buf[off + 2], buf[off + 3]] := by
    rw [Bytes.slice, List.drop_eq_getElem_cons (by omega), List.drop_eq_getElem_cons (by omega),
      List.drop_eq_getElem_cons (by omega), List.drop_eq_getElem_cons (by omega)]
    rfl
  rw [rdU32, hslice, List.getElem?_eq_getElem (by omega), List.getElem?_eq_getElem (by omega),
    List.getElem?_eq_getElem (by omega), List.getElem?_eq_getElem (by omega)]
  rfl

/-- The numbers of the embedding of `token`: the value times the scale of its group. -/
def dequantized {F : Type} (ops : FloatOps F) (c : Config) (t : QTensor) (token i : ℕ) : F :=
  let idx := token * c.dim + i
  ops.mul (ops.ofInt (t.q.getD idx 0).toInt8.toInt)
    (ops.ofBits (UInt32.ofNat (Bytes.toNat (Bytes.slice t.s (idx / c.groupSize * 4) 4))))

/-- **The embedding of a token** is read off the token tensor. -/
theorem Model.embedRow_eq {F : Type} (ops : FloatOps F) {m : Model} (hgs : 0 < m.config.groupSize)
    {t : QTensor} (ht : m.qTokens.tensor M m.buf 0 = some t)
    (hfits : t.Fits m.config (m.config.vocabSize * m.config.dim))
    (hgroup : m.config.groupSize ∣ m.config.vocabSize * m.config.dim)
    (hlen : m.config.tensorBytes (m.config.vocabSize * m.config.dim) < 2 ^ M.width) {token : ℕ}
    (htoken : token < m.config.vocabSize) {out : List F} (hout : out.length = m.config.dim) :
    m.embedRow M ops token out =
      some ((List.range m.config.dim).map (dequantized ops m.config t token)) := by
  have hrow : token * m.config.dim + m.config.dim ≤ m.config.vocabSize * m.config.dim := by
    rw [← Nat.add_one_mul]
    exact Nat.mul_le_mul_right _ htoken
  have hq := hfits.q
  have hs := hfits.s
  unfold Config.tensorBytes at hlen
  unfold Model.embedRow
  refine bind_eq_of_some ht (bind_eq_of_some (Machine.mul_of_lt (by omega)) ?_)
  refine upTo_eq_map (fun i hi xs hxs => ?_) hout
  have hidx : token * m.config.dim + i < m.config.vocabSize * m.config.dim := by omega
  have hscale : (token * m.config.dim + i) / m.config.groupSize <
      m.config.vocabSize * m.config.dim / m.config.groupSize :=
    Nat.div_lt_div_of_lt_of_dvd hgroup hidx
  refine bind_eq_of_some (Machine.add_of_lt (by omega)) ?_
  refine bind_eq_of_some (bind_eq_of_some (List.getElem?_eq_getElem (by omega)) rfl) ?_
  refine bind_eq_of_some (if_neg hgs.ne') ?_
  refine bind_eq_of_some (bind_eq_of_some (Machine.mul_of_lt (by omega))
    (bind_eq_of_some (rdU32_eq (by omega)) rfl)) ?_
  rw [setAt, if_pos (by omega), dequantized, List.getD_eq_getElem?_getD,
    List.getElem?_eq_getElem (by omega), Option.getD_some]

end Accessors

/-! ## Regions -/

/-- Regions that follow one another from `a` to `b`. -/
def Chain : ℕ → List (ℕ × ℕ) → ℕ → Prop
  | a, [], b => a = b
  | a, r :: rs, b => r.1 = a ∧ Chain (a + r.2) rs b

/-- Two chains, the second from the end of the first. -/
theorem Chain.append {rs rs' : List (ℕ × ℕ)} {b d : ℕ} :
    ∀ {a : ℕ}, Chain a rs b → Chain b rs' d → Chain a (rs ++ rs') d := by
  induction rs with
  | nil => exact fun h h' => (show _ = b from h) ▸ h'
  | cons r rs ih => exact fun h h' => ⟨h.1, ih h.2 h'⟩

/-- Blocks of one size. -/
theorem Chain.blocks {regions : ℕ → List (ℕ × ℕ)} {base stride : ℕ}
    (h : ∀ l, Chain (base + l * stride) (regions l) (base + (l + 1) * stride)) (n : ℕ) :
    Chain base ((List.range n).flatMap regions) (base + n * stride) := by
  induction n with
  | zero => exact (Nat.zero_mul stride).symm ▸ rfl
  | succ n ih =>
    rw [List.range_succ, List.flatMap_append, List.flatMap_singleton]
    exact ih.append (h n)

/-- A chain ends behind its beginning. -/
theorem Chain.le {rs : List (ℕ × ℕ)} {b : ℕ} : ∀ {a : ℕ}, Chain a rs b → a ≤ b := by
  induction rs with
  | nil => exact fun h => Nat.le_of_eq h
  | cons r rs ih => exact fun h => (Nat.le_add_right _ _).trans (ih h.2)

/-- Regions that do not overlap and fill the first `n` bytes. -/
structure Tiles (rs : List (ℕ × ℕ)) (n : ℕ) : Prop where
  disjoint : rs.Pairwise fun r r' => r.1 + r.2 ≤ r'.1
  fills : ∀ i, i < n ↔ ∃ r ∈ rs, r.1 ≤ i ∧ i < r.1 + r.2

/-- The regions of a chain cover what is between its ends. -/
theorem Chain.mem_iff {rs : List (ℕ × ℕ)} {b : ℕ} :
    ∀ {a : ℕ}, Chain a rs b → ∀ i, a ≤ i ∧ i < b ↔ ∃ r ∈ rs, r.1 ≤ i ∧ i < r.1 + r.2 := by
  induction rs with
  | nil =>
    intro a h i
    have hab : a = b := h
    simp only [List.not_mem_nil, false_and, exists_false, iff_false]
    omega
  | cons r rs ih =>
    intro a h i
    obtain ⟨hr, hrest⟩ := h
    have hle := hrest.le
    rw [List.exists_mem_cons_iff, ← ih hrest i]
    omega

/-- They stand one behind the other. -/
theorem Chain.pairwise {rs : List (ℕ × ℕ)} {b : ℕ} :
    ∀ {a : ℕ}, Chain a rs b →
      (∀ r ∈ rs, a ≤ r.1) ∧ rs.Pairwise fun r r' => r.1 + r.2 ≤ r'.1 := by
  induction rs with
  | nil => exact fun _ => ⟨fun r hr => absurd hr List.not_mem_nil, List.Pairwise.nil⟩
  | cons r rs ih =>
    rintro a ⟨rfl, hrest⟩
    obtain ⟨hle, hpair⟩ := ih hrest
    refine ⟨?_, List.pairwise_cons.mpr ⟨hle, hpair⟩⟩
    intro r' hr'
    rcases List.mem_cons.mp hr' with rfl | hr'
    · exact le_rfl
    · exact (Nat.le_add_right _ _).trans (hle r' hr')

/-- A chain from the beginning to the end tiles the file. -/
theorem Chain.tiles {rs : List (ℕ × ℕ)} {n : ℕ} (h : Chain 0 rs n) : Tiles rs n where
  disjoint := h.pairwise.2
  fills i := by
    rw [← h.mem_iff i]
    exact ⟨fun hi => ⟨Nat.zero_le i, hi⟩, fun hi => hi.2⟩

/-- The values and the scales of every tensor of a group. -/
def QGroup.regions (g : QGroup) : List (ℕ × ℕ) :=
  (List.range g.count).flatMap fun l =>
    let off := g.base + l * (g.sizeEach + g.sizeEach / g.gs * 4)
    [(off, g.sizeEach), (off + g.sizeEach, g.sizeEach / g.gs * 4)]

/-- The regions of a parsed file, in order: the header, the norms of each layer, the
tensors. -/
def Model.regions (m : Model) : List (ℕ × ℕ) :=
  let norms base := (List.range m.config.nLayers).flatMap fun l =>
    [(base + l * (m.config.dim * 4), m.config.dim * 4)]
  [(0, headerBytes)] ++ norms m.rmsAtt ++ norms m.rmsFfn ++ [(m.rmsFinal, m.config.dim * 4)] ++
    [m.qTokens, m.wq, m.wk, m.wv, m.wo, m.w1, m.w2, m.w3].flatMap QGroup.regions ++
    if m.config.sharedClassifier then [] else m.wcls.regions

/-- The tensors of a group are a chain. -/
theorem QGroup.chain_regions (base count size gs : ℕ) :
    Chain base (QGroup.mk base count size gs).regions
      (base + count * (size + size / gs * 4)) := by
  have htensor (l : ℕ) : Chain (base + l * (size + size / gs * 4))
      [(base + l * (size + size / gs * 4), size),
        (base + l * (size + size / gs * 4) + size, size / gs * 4)]
      (base + (l + 1) * (size + size / gs * 4)) := by
    rw [Nat.add_one_mul]
    refine ⟨rfl, rfl, ?_⟩
    show _ = _
    omega
  exact Chain.blocks htensor count

/-- **The regions of a model are a chain** from the header to the end of the file. -/
theorem Model.chain_regions (c : Config) (buf : List UInt8) :
    Chain 0 (Model.laidOut c buf).regions c.fileSize := by
  have hnorms (base : ℕ) : Chain base ((List.range c.nLayers).flatMap fun l =>
      [(base + l * (c.dim * 4), c.dim * 4)]) (base + c.normBytes) := by
    have hrow (l : ℕ) : Chain (base + l * (c.dim * 4)) [(base + l * (c.dim * 4), c.dim * 4)]
        (base + (l + 1) * (c.dim * 4)) := by
      rw [Nat.add_one_mul]
      refine ⟨rfl, ?_⟩
      show _ = _
      omega
    rw [Config.normBytes, Nat.mul_assoc]
    exact Chain.blocks hrow c.nLayers
  have hgroup {i count size : ℕ} (h : c.shapes[i]? = some (count, size)) :
      Chain (c.offset i) (QGroup.mk (c.offset i) count size c.groupSize).regions
        (c.offset (i + 1)) := by
    rw [c.offset_succ h]
    exact QGroup.chain_regions _ _ _ _
  have hheader : Chain 0 [(0, headerBytes)] headerBytes := ⟨rfl, Nat.zero_add _⟩
  have hfinal : Chain (headerBytes + c.normBytes + c.normBytes)
      [(headerBytes + c.normBytes + c.normBytes, c.dim * 4)] (c.offset 0) := ⟨rfl, rfl⟩
  have hgroups := (hgroup (i := 0) rfl).append <| (hgroup (i := 1) rfl).append <|
    (hgroup (i := 2) rfl).append <| (hgroup (i := 3) rfl).append <|
    (hgroup (i := 4) rfl).append <| (hgroup (i := 5) rfl).append <|
    (hgroup (i := 6) rfl).append <| (hgroup (i := 7) rfl).append <|
    (show Chain (c.offset 8) [] (c.offset 8) from rfl)
  have hpayload := (((hheader.append (hnorms _)).append (hnorms _)).append hfinal).append hgroups
  refine Chain.append hpayload ?_
  rw [Config.fileSize]
  by_cases hshared : c.sharedClassifier
  · rw [Model.laidOut, if_pos hshared, if_pos hshared]
    rfl
  · rw [Model.laidOut, if_neg hshared, if_neg hshared, if_neg hshared]
    exact QGroup.chain_regions _ _ _ _

/-! ## What a file holds -/

/-- The accessors of a parsed file return its pieces, and the regions they are read from
do not overlap and fill the file. -/
structure Model.Holds (M : Machine) (m : Model) (p : Pieces) : Prop where
  rmsAtt : ∀ l < m.config.nLayers, m.rmsAttRow M l =
    some (Bytes.slice p.rmsAtt (l * m.config.dim * 4) (m.config.dim * 4))
  rmsFfn : ∀ l < m.config.nLayers, m.rmsFfnRow M l =
    some (Bytes.slice p.rmsFfn (l * m.config.dim * 4) (m.config.dim * 4))
  rmsFinal : m.rmsFinalRow M = some p.rmsFinal
  tokens : m.qTokens.tensor M m.buf 0 = some p.qTokens
  embedRow : ∀ {F : Type} (ops : FloatOps F) (token : ℕ) (out : List F),
    token < m.config.vocabSize → out.length = m.config.dim → m.embedRow M ops token out =
      some ((List.range m.config.dim).map (dequantized ops m.config p.qTokens token))
  wq : ∀ l t, p.wq[l]? = some t → m.wq.tensor M m.buf l = some t
  wk : ∀ l t, p.wk[l]? = some t → m.wk.tensor M m.buf l = some t
  wv : ∀ l t, p.wv[l]? = some t → m.wv.tensor M m.buf l = some t
  wo : ∀ l t, p.wo[l]? = some t → m.wo.tensor M m.buf l = some t
  w1 : ∀ l t, p.w1[l]? = some t → m.w1.tensor M m.buf l = some t
  w2 : ∀ l t, p.w2[l]? = some t → m.w2.tensor M m.buf l = some t
  w3 : ∀ l t, p.w3[l]? = some t → m.w3.tensor M m.buf l = some t
  wcls : m.wcls.tensor M m.buf 0 = some (p.wcls.getD p.qTokens)
  tiles : Tiles m.regions m.buf.length

section Holds

variable {M : Machine} {c : Config} {p : Pieces}

/-- The groups have the shapes, one by one. -/
theorem Pieces.Fits.group (h : p.Fits c) {i : ℕ} {shape : ℕ × ℕ} {ts : List QTensor}
    (hshape : c.shapes[i]? = some shape) (hts : p.groups[i]? = some ts) :
    ∀ t ∈ ts, t.Fits c shape.2 := by
  obtain ⟨hi, rfl⟩ := List.getElem?_eq_some_iff.mp hshape
  obtain ⟨hj, rfl⟩ := List.getElem?_eq_some_iff.mp hts
  exact (List.forall₂_iff_get.mp h.groups).2 i hi hj |>.2

/-- **What a file of fitting pieces holds.** -/
theorem Pieces.Fits.holds (hc : c.Valid) (h : p.Fits c)
    (hfile : (p.file c).length < 2 ^ M.width) :
    (Model.laidOut c (p.file c)).Holds M p := by
  have hgs : 0 < c.groupSize := hc.pos _ (by simp)
  -- each group is read where it was written
  have hgroup {i count size : ℕ} {ts : List QTensor} (hshape : c.shapes[i]? = some (count, size))
      (hts : p.groups[i]? = some ts) : ∀ l t, ts[l]? = some t →
      (QGroup.mk (c.offset i) count size c.groupSize).tensor M (p.file c) l = some t := by
    intro l t ht
    rw [← h.length_before i]
    exact QGroup.tensor_eq hgs (h.group hshape hts) (Pieces.file_eq hts) hfile ht
  have htokens := hgroup (i := 0) rfl rfl 0 p.qTokens rfl
  have hnorms : c.payload ≤ (p.file c).length := h.length_file ▸ c.payload_le_fileSize
  have hrest : p.file c = (header c ++ p.rmsAtt ++ p.rmsFfn) ++ p.rmsFinal ++
      (p.groups.flatMap groupBytes ++ p.wcls.elim [] QTensor.bytes) := by
    rw [Pieces.file]
    simp only [List.append_assoc]
  refine ⟨fun l hl => ?_, fun l hl => ?_, ?_, htokens, ?_, hgroup (i := 1) rfl rfl,
    hgroup (i := 2) rfl rfl, hgroup (i := 3) rfl rfl, hgroup (i := 4) rfl rfl,
    hgroup (i := 5) rfl rfl, hgroup (i := 6) rfl rfl, hgroup (i := 7) rfl rfl, ?_, ?_⟩
  · -- the norms before attention
    have hbuf : p.file c = header c ++ p.rmsAtt ++ (p.rmsFfn ++ p.rmsFinal ++
        p.groups.flatMap groupBytes ++ p.wcls.elim [] QTensor.bytes) := by
      rw [Pieces.file]
      simp only [List.append_assoc]
    exact Model.normRow_eq hbuf hfile (length_header c).symm h.rmsAtt hl
  · -- the norms before the feed-forward part
    have hbuf : p.file c = (header c ++ p.rmsAtt) ++ p.rmsFfn ++ (p.rmsFinal ++
        p.groups.flatMap groupBytes ++ p.wcls.elim [] QTensor.bytes) := by
      rw [Pieces.file]
      simp only [List.append_assoc]
    refine Model.normRow_eq hbuf hfile ?_ h.rmsFfn hl
    rw [List.length_append, length_header, h.rmsAtt]
    rfl
  · -- the last norms
    have hpre : (header c ++ p.rmsAtt ++ p.rmsFfn).length =
        headerBytes + c.normBytes + c.normBytes := by
      rw [List.length_append, List.length_append, length_header, h.rmsAtt, h.rmsFfn]
    unfold Config.payload at hnorms
    have hcut := slice_append (header c ++ p.rmsAtt ++ p.rmsFfn) p.rmsFinal
      (p.groups.flatMap groupBytes ++ p.wcls.elim [] QTensor.bytes)
    rw [← hrest, hpre, h.rmsFinal] at hcut
    refine bind_eq_of_some (Machine.mul_of_lt (show c.dim * 4 < _ by omega)) ?_
    exact bind_eq_of_some (Machine.add_of_lt (show
      headerBytes + c.normBytes + c.normBytes + c.dim * 4 < _ by omega)) hcut
  · -- the embedding
    intro F ops token out htoken hout
    have hsize := c.offset_add_le (i := 0) rfl
    have hbytes : c.groupBytes (1, c.vocabSize * c.dim) =
        c.tensorBytes (c.vocabSize * c.dim) := Nat.one_mul _
    rw [h.length_file] at hfile
    exact Model.embedRow_eq ops hgs htokens
      (h.group (i := 0) rfl rfl p.qTokens List.mem_cons_self)
      (hc.group _ List.mem_cons_self)
      (show c.tensorBytes (c.vocabSize * c.dim) < _ by omega) htoken hout
  · -- the classifier
    have hshared := h.shared
    rw [Model.laidOut]
    dsimp only
    cases hcls : p.wcls with
    | none =>
      rw [hcls] at hshared
      have htrue : c.sharedClassifier = true := hshared.symm
      rw [if_pos htrue]
      exact htokens
    | some t =>
      rw [hcls] at hshared
      have hfalse : ¬ c.sharedClassifier = true := by
        rw [← hshared]
        exact Bool.false_ne_true
      have hbuf : p.file c = p.before c 8 ++ groupBytes [t] ++ [] := by
        rw [Pieces.file, Pieces.before, hcls, groupBytes, List.flatMap_singleton]
        simp only [List.append_assoc, List.append_nil]
        rfl
      have hfits : ∀ u ∈ [t], u.Fits c (c.dim * c.vocabSize) := by
        intro u hu
        rw [List.mem_singleton.mp hu]
        exact h.wcls t hcls
      rw [if_neg hfalse, ← h.length_before 8]
      exact QGroup.tensor_eq hgs hfits hbuf hfile rfl
  · rw [show (Model.laidOut c (p.file c)).buf = p.file c from rfl, h.length_file]
    exact (Model.chain_regions c _).tiles

end Holds

/-! ## The writers -/

section Writers

variable {F : Type} (ops : FloatOps F)

/-! ### Pieces of a file -/

/-- A tensor that is quantized by `one`, a number at a time. -/
def quantTensor (one : F → F → Int8) (gs : ℕ) (x : List F) : QTensor where
  q := (groups gs x).flatMap fun g => g.map fun x => (one (groupScale ops g) x).toUInt8
  s := putF32 ops ((groups gs x).map (groupScale ops))

/-- The pieces of the tensors. -/
def Tensors.pieces (one : F → F → Int8) (gs : ℕ) (t : Tensors F) : Pieces where
  rmsAtt := putF32 ops t.rmsAtt
  rmsFfn := putF32 ops t.rmsFfn
  rmsFinal := putF32 ops t.rmsFinal
  qTokens := quantTensor ops one gs t.qTokens
  wq := t.wq.map (quantTensor ops one gs)
  wk := t.wk.map (quantTensor ops one gs)
  wv := t.wv.map (quantTensor ops one gs)
  wo := t.wo.map (quantTensor ops one gs)
  w1 := t.w1.map (quantTensor ops one gs)
  w2 := t.w2.map (quantTensor ops one gs)
  w3 := t.w3.map (quantTensor ops one gs)
  wcls := t.wcls.map (quantTensor ops one gs)

/-- The tensors have the shapes of the configuration; there is a separate classifier
exactly if it is not shared. -/
structure Tensors.Shaped (c : Config) (t : Tensors F) : Prop where
  rmsAtt : t.rmsAtt.length = c.nLayers * c.dim
  rmsFfn : t.rmsFfn.length = c.nLayers * c.dim
  rmsFinal : t.rmsFinal.length = c.dim
  groups : List.Forall₂ (fun (shape : ℕ × ℕ) (ws : List (List F)) =>
    ws.length = shape.1 ∧ ∀ w ∈ ws, w.length = shape.2) c.shapes
    [[t.qTokens], t.wq, t.wk, t.wv, t.wo, t.w1, t.w2, t.w3]
  shared : t.wcls.isNone = c.sharedClassifier
  wcls : ∀ w ∈ t.wcls, w.length = c.dim * c.vocabSize

/-- A number takes four bytes. -/
theorem length_putF32 (xs : List F) : (putF32 ops xs).length = xs.length * 4 := by
  induction xs with
  | nil => rfl
  | cons x xs ih =>
    rw [putF32, List.flatMap_cons, List.length_append, Bytes.length_ofNat, List.length_cons,
      Nat.add_one_mul, Nat.add_comm]
    exact congrArg (· + 4) ih

/-- Groups have the group size. -/
theorem length_of_mem_groups {gs : ℕ} {x g : List F} (h : g ∈ groups gs x) : g.length = gs := by
  obtain ⟨k, hk, rfl⟩ := List.mem_map.mp h
  have hle : (k + 1) * gs ≤ x.length :=
    (Nat.mul_le_mul_right gs (List.mem_range.mp hk)).trans (Nat.div_mul_le_self _ _)
  rw [Nat.add_one_mul] at hle
  rw [List.length_take, List.length_drop]
  omega

/-- What the writer quantises has the sizes of its shape. -/
theorem quantTensor_fits (one : F → F → Int8) {c : Config} {x : List F} {size : ℕ}
    (hx : x.length = size) (hgs : c.groupSize ∣ size) :
    (quantTensor ops one c.groupSize x).Fits c size where
  q := by
    have hlens : ∀ {gs : List (List F)}, (∀ g ∈ gs, g.length = c.groupSize) →
        (gs.flatMap fun g => g.map fun x => (one (groupScale ops g) x).toUInt8).length =
          gs.length * c.groupSize := by
      intro gs hgs
      induction gs with
      | nil => exact (Nat.zero_mul _).symm
      | cons g gs ih =>
        rw [List.flatMap_cons, List.length_append, List.length_map, hgs g List.mem_cons_self,
          ih fun g' hg' => hgs g' (List.mem_cons_of_mem g hg'), List.length_cons, Nat.add_one_mul,
          Nat.add_comm]
    rw [quantTensor, hlens fun g hg => length_of_mem_groups hg, groups, List.length_map,
      List.length_range, hx, Nat.div_mul_cancel hgs]
  s := by
    rw [quantTensor, length_putF32, List.length_map, groups, List.length_map, List.length_range, hx]

variable {ops}

/-- Tensors of the right shapes give pieces of the right shapes. -/
theorem Tensors.Shaped.fits (ops : FloatOps F) {c : Config} (hc : c.Valid) {t : Tensors F}
    (ht : t.Shaped c) (one : F → F → Int8) : (t.pieces ops one c.groupSize).Fits c where
  rmsAtt := (length_putF32 ops _).trans (congrArg (· * 4) ht.rmsAtt)
  rmsFfn := (length_putF32 ops _).trans (congrArg (· * 4) ht.rmsFfn)
  rmsFinal := (length_putF32 ops _).trans (congrArg (· * 4) ht.rmsFinal)
  groups := by
    have hmap : (t.pieces ops one c.groupSize).groups =
        [[t.qTokens], t.wq, t.wk, t.wv, t.wo, t.w1, t.w2, t.w3].map
          (List.map (quantTensor ops one c.groupSize)) := rfl
    rw [hmap, List.forall₂_map_right_iff]
    refine (List.forall₂_iff_get.mpr ⟨(List.forall₂_iff_get.mp ht.groups).1, ?_⟩)
    intro i hi hi'
    obtain ⟨hcount, hsize⟩ := (List.forall₂_iff_get.mp ht.groups).2 i hi hi'
    refine ⟨(List.length_map _).trans hcount, fun q hq => ?_⟩
    obtain ⟨w, hw, rfl⟩ := List.mem_map.mp hq
    exact quantTensor_fits ops one (hsize w hw) (hc.group _ (List.getElem_mem hi))
  shared := by
    rw [← ht.shared]
    exact Option.isNone_map
  wcls := by
    intro q hq
    obtain ⟨w, hw, rfl⟩ := Option.map_eq_some_iff.mp hq
    have hgroup := hc.group (1, c.vocabSize * c.dim) List.mem_cons_self
    rw [Nat.mul_comm] at hgroup
    exact quantTensor_fits ops one (ht.wcls w hw) hgroup

/-- The weights of the layers, in the order of the file. -/
def Tensors.weights (t : Tensors F) : List (List F) :=
  [t.wq, t.wk, t.wv, t.wo, t.w1, t.w2, t.w3].flatten

/-- The file of the pieces, tensor by tensor. -/
theorem Tensors.file_pieces (one : F → F → Int8) (c : Config) (t : Tensors F) :
    (t.pieces ops one c.groupSize).file c =
      header c ++ putF32 ops t.rmsAtt ++ putF32 ops t.rmsFfn ++ putF32 ops t.rmsFinal ++
        (quantTensor ops one c.groupSize t.qTokens).bytes ++
        t.weights.flatMap (fun w => (quantTensor ops one c.groupSize w).bytes) ++
        t.wcls.elim [] fun w => (quantTensor ops one c.groupSize w).bytes := by
  have hcls : (t.wcls.map (quantTensor ops one c.groupSize)).elim [] QTensor.bytes =
      t.wcls.elim [] fun w => (quantTensor ops one c.groupSize w).bytes := by
    cases t.wcls <;> rfl
  simp only [Pieces.file, Pieces.groups, Tensors.pieces, hcls, Tensors.weights, groupBytes,
    List.flatten_cons, List.flatten_nil, List.flatMap_append, List.flatMap_cons, List.flatMap_nil,
    List.flatMap_map, List.append_assoc, List.append_nil]

/-- `write_v2` writes the pieces. -/
theorem writeV2_eq_file (c : Config) (t : Tensors F) :
    writeV2 ops c t = (t.pieces ops (quantized ops) c.groupSize).file c := by
  rw [Tensors.file_pieces, Tensors.weights, List.flatten_eq_flatMap, List.flatMap_assoc]
  rfl

/-! ### The second writer -/

/-- The quantiser of the second writer makes the same bytes. -/
theorem quantQ8_eq (ops : FloatOps F) {x : List F} {gs : ℕ} (h : gs ∣ x.length) :
    Llama.quantQ8 ops x gs = some (quantTensor ops (Llama.quantOne ops) gs x).bytes :=
  if_pos (Nat.mod_eq_zero_of_dvd h)

/-- A map whose steps all succeed is a plain map. -/
theorem mapM_eq_map {α β : Type} {f : α → Option β} {g : α → β} {xs : List α}
    (h : ∀ x ∈ xs, f x = some (g x)) : xs.mapM f = some (xs.map g) := by
  induction xs with
  | nil => rfl
  | cons x xs ih =>
    rw [List.mapM_cons, h x List.mem_cons_self, ih fun y hy => h y (List.mem_cons_of_mem x hy)]
    rfl

/-- Every tensor of the right shape has whole groups. -/
theorem Tensors.Shaped.group {c : Config} (hc : c.Valid) {t : Tensors F} (ht : t.Shaped c)
    {w : List F} (hw : w ∈ t.qTokens :: t.weights) : c.groupSize ∣ w.length := by
  have hflat : t.qTokens :: t.weights =
      [[t.qTokens], t.wq, t.wk, t.wv, t.wo, t.w1, t.w2, t.w3].flatten := rfl
  rw [hflat] at hw
  obtain ⟨ws, hws, hmem⟩ := List.mem_flatten.mp hw
  obtain ⟨i, hi, rfl⟩ := List.getElem_of_mem hws
  obtain ⟨hlen, hshape⟩ := List.forall₂_iff_get.mp ht.groups
  rw [(hshape i (hlen ▸ hi) hi).2 w hmem]
  exact hc.group _ (List.getElem_mem _)

/-- **The export writes the pieces** of its own quantization. -/
theorem exportV2_eq_file {c : Config} (hc : c.Valid) {model : Llama F} (hconfig : model.c = c)
    (ht : model.tensors.Shaped c) : model.exportV2 ops c.groupSize =
      some ((model.tensors.pieces ops (Llama.quantOne ops) c.groupSize).file c) := by
  have hheader : Llama.packHeader model.c model.lmHead.isNone c.groupSize = some (header c) := by
    have hshared : (if model.lmHead.isNone = true then 1 else 0) = c.sharedClassifier.toUInt8 := by
      rw [show model.lmHead.isNone = c.sharedClassifier from ht.shared]
      cases c.sharedClassifier <;> rfl
    rw [hconfig, Llama.packHeader, hshared, if_pos]
    · rfl
    · refine ⟨fun v hv => hc.fits v ?_, hc.fits _ (by simp)⟩
      exact List.mem_append_left [c.groupSize] hv
  have htok := quantQ8_eq ops (ht.group hc List.mem_cons_self)
  have hattrs : (Llama.attrs.flatMap fun attr => model.blocks.map attr) = model.tensors.weights :=
    rfl
  have hweights := mapM_eq_map fun w hw =>
    quantQ8_eq ops (ht.group hc (List.mem_cons_of_mem _ hw))
  have hcls : (model.lmHead.elim (some []) fun w => Llama.quantQ8 ops w c.groupSize) =
      some (model.lmHead.elim [] fun w =>
        (quantTensor ops (Llama.quantOne ops) c.groupSize w).bytes) := by
    have hgroup := hc.group (1, c.vocabSize * c.dim) List.mem_cons_self
    rw [Nat.mul_comm] at hgroup
    have hlen := ht.wcls
    cases hhead : model.lmHead with
    | none => rfl
    | some w => exact quantQ8_eq ops ((hlen w hhead).symm ▸ hgroup)
  unfold Llama.exportV2
  rw [hattrs]
  refine bind_eq_of_some hheader (bind_eq_of_some htok (bind_eq_of_some hweights
    (bind_eq_of_some hcls ?_)))
  rw [Tensors.file_pieces, ← List.flatMap_def]
  simp only [Llama.tensors, putF32, List.flatMap_assoc]

/-- The reader on a file of pieces. -/
theorem Pieces.Fits.parse_file {M : Machine} {c : Config} (hc : c.Valid) {p : Pieces}
    (h : p.Fits c) (hfile : (p.file c).length < 2 ^ M.width) :
    Model.parse M (p.file c) = .ok (Model.laidOut c (p.file c)) :=
  Model.parse_eq hc h.length_file (h.length_file ▸ hfile)

/-! ### The round trip -/

/-- **Round trip of checkpoints.**  A file that `write_v2` writes parses to its
configuration, every accessor returns the bytes that were written for its tensor, and the
regions fill the file without overlap.  The export of the training code puts the same
tensors at the same offsets, behind the same header and norms. -/
theorem parse_writeV2 (ops : FloatOps F) (M : Machine) {c : Config} (hc : c.Valid)
    {t : Tensors F} (ht : t.Shaped c) (hfile : (writeV2 ops c t).length < 2 ^ M.width) :
    ∃ m, Model.parse M (writeV2 ops c t) = .ok m ∧ m.config = c ∧ m.buf = writeV2 ops c t ∧
      m.Holds M (t.pieces ops (quantized ops) c.groupSize) ∧
      ∀ model : Llama F, model.c = c → model.tensors = t →
        ∃ out, model.exportV2 ops c.groupSize = some out ∧
          out.length = (writeV2 ops c t).length ∧
          out.take c.payload = (writeV2 ops c t).take c.payload ∧
          Model.parse M out = .ok { m with buf := out } ∧
          Model.Holds M { m with buf := out } (t.pieces ops (Llama.quantOne ops) c.groupSize) := by
  have hfits := ht.fits ops hc (quantized ops)
  have hexport := ht.fits ops hc (Llama.quantOne ops)
  rw [writeV2_eq_file] at hfile ⊢
  refine ⟨_, hfits.parse_file hc hfile, rfl, rfl, hfits.holds hc hfile, ?_⟩
  rintro model hconfig rfl
  have hlen : ((model.tensors.pieces ops (Llama.quantOne ops) c.groupSize).file c).length =
      ((model.tensors.pieces ops (quantized ops) c.groupSize).file c).length :=
    hexport.length_file.trans hfits.length_file.symm
  have hfits' := hlen.trans_lt hfile
  refine ⟨_, exportV2_eq_file hc hconfig ht, hlen, ?_, hexport.parse_file hc hfits',
    hexport.holds hc hfits'⟩
  have hpayload (one : F → F → Int8) (h : (model.tensors.pieces ops one c.groupSize).Fits c) :
      ((model.tensors.pieces ops one c.groupSize).file c).take c.payload =
        (model.tensors.pieces ops one c.groupSize).before c 0 := by
    have hbefore : ((model.tensors.pieces ops one c.groupSize).before c 0).length = c.payload :=
      h.length_before 0
    rw [Pieces.file_eq (i := 0) rfl, List.append_assoc, ← hbefore, List.take_left]
  rw [hpayload _ hexport, hpayload _ hfits]
  rfl

end Writers

/-! ## A small model -/

/-- Operations on bit patterns that are right where an operand is zero. -/
def zeroOps : FloatOps UInt32 where
  lit q := if q = 0 then 0 else if q = 127 then 0x42fe0000 else 0x3f800000
  add a b := if b = 0 then a else b
  sub a _ := a
  mul a b := if a = 0 ∨ b = 0 then 0 else a
  div a _ := a
  neg a := a
  lt _ _ := false
  eq a b := a = b
  abs a := a
  sign a := a
  round a := a
  floor a := a
  sqrt a := a
  exp _ := 0x3f800000
  pow a _ := a
  cos _ := 0x3f800000
  sin a := a
  ofInt _ := 0
  toI8 _ := 0
  ofBits := id
  toBits := id

def smallConfig : Config := ⟨2, 1, 1, 1, 1, 1, 1, 1, true⟩

def usize32 : Machine := ⟨32, false, le_rfl⟩

/-- The small configuration passes the checks of the reader. -/
theorem smallConfig_valid : smallConfig.Valid := ⟨by decide, by decide, by decide, by decide⟩

/-! ## A model of two layers -/

/-- Whole numbers as numbers, in two's complement. -/
def wholeOps : FloatOps ℤ where
  lit q := q.floor
  add a b := a + b
  sub a b := a - b
  mul a b := a * b
  div a b := a / b
  neg a := -a
  lt a b := a < b
  eq a b := a = b
  abs a := a.natAbs
  sign a := a.sign
  round a := a
  floor a := a
  sqrt a := a.natAbs.sqrt
  exp _ := 1
  pow a b := a ^ b.toNat
  cos _ := 1
  sin a := a
  ofInt a := a
  toI8 a := .ofInt a
  ofBits u := u.toInt32.toInt
  toBits a := (Int32.ofInt a).toUInt32

/-- Two layers with two heads, which share a key and a value, and a classifier of its own. -/
def twoConfig : Config := ⟨4, 6, 2, 2, 1, 3, 5, 2, false⟩

/-- Weights of both signs, whose groups have different scales. -/
def alternating (n : ℕ) (first : ℤ) : List ℤ :=
  (List.range n).map fun i => if i % 2 = 0 then 127 * (first + i) else -(first + i)

def twoBlock (first : ℤ) : Block ℤ where
  attNorm := alternating 4 first
  ffnNorm := alternating 4 (first + 1)
  wq := alternating 16 (first + 2)
  wk := alternating 8 (first + 3)
  wv := alternating 8 (first + 4)
  wo := alternating 16 (first + 5)
  w1 := alternating 24 (first + 6)
  w2 := alternating 24 (first + 7)
  w3 := alternating 24 (first + 8)

def twoLayers : Llama ℤ where
  c := twoConfig
  tok := alternating 12 1
  blocks := [twoBlock 10, twoBlock 20]
  finalNorm := alternating 4 2
  lmHead := some (alternating 12 30)

/-- So does the one with two layers. -/
theorem twoConfig_valid : twoConfig.Valid :=
  ⟨by decide, by decide, by decide, by decide⟩

/-- The model makes the round trip through both writers. -/
theorem parse_writeV2_two :
    ∃ m, Model.parse usize32 (writeV2 wholeOps twoConfig twoLayers.tensors) = .ok m ∧
      m.config = twoConfig ∧
      m.Holds usize32 (twoLayers.tensors.pieces wholeOps (quantized wholeOps) 2) ∧
      ∃ out, twoLayers.exportV2 wholeOps 2 = some out ∧
        Model.parse usize32 out = .ok { m with buf := out } := by
  have hshaped : twoLayers.tensors.Shaped twoConfig := by
    refine ⟨by decide, by decide, by decide, ?_, rfl, by decide⟩
    iterate 8 refine .cons ⟨rfl, by decide⟩ ?_
    exact .nil
  obtain ⟨m, hparse, hconfig, -, hholds, hexport⟩ :=
    parse_writeV2 wholeOps usize32 twoConfig_valid hshaped (by decide +kernel)
  obtain ⟨out, hout, -, -, hagain, -⟩ := hexport twoLayers rfl rfl
  exact ⟨m, hparse, hconfig, hholds, out, hout, hagain⟩

end TinyLlm
