/-
# Checkpoints: the `version 2` (Q8_0) format

A checkpoint has a header of 256 bytes, three groups of `f32` norm weights, and groups of
quantized tensors, each of them the `int8` values and then one `f32` scale for each group of
values.  `Model.parse` checks the header and computes where every group starts; the
accessors cut a tensor out of the buffer on demand.  `writeV2` and the training export write
such a file.

The arithmetic of the reader is that of a machine word, `Machine`.  Floating-point numbers
are a parameter: a type with the operations that are used.
-/
import Mathlib.Data.Rat.Defs
import PySpell.Lib.Bytes
import PySpell.Lib.Checked
import PySpell.Lib.Outcome

open Checked

namespace TinyLlm

/-! ## Numbers -/

/-- The operations on `f32` that are used, with those of `libm`. -/
structure FloatOps (F : Type) where
  lit : ℚ → F
  add : F → F → F
  sub : F → F → F
  mul : F → F → F
  div : F → F → F
  neg : F → F
  lt : F → F → Bool
  eq : F → F → Bool
  abs : F → F
  sign : F → F
  round : F → F
  floor : F → F
  sqrt : F → F
  exp : F → F
  pow : F → F → F
  cos : F → F
  sin : F → F
  ofInt : ℤ → F
  toI8 : F → Int8
  ofBits : UInt32 → F
  toBits : F → UInt32

/-- The word in the four bytes at `off`. -/
def rdU32 (buf : List UInt8) (off : ℕ) : Option UInt32 := do
  let a ← buf[off]?
  let b ← buf[off + 1]?
  let c ← buf[off + 2]?
  let d ← buf[off + 3]?
  some (UInt32.ofNat (Bytes.toNat [a, b, c, d]))

def rdI32 (buf : List UInt8) (off : ℕ) : Option ℤ := do
  let u ← rdU32 buf off
  some u.toInt32.toInt

def rdF32 {F : Type} (ops : FloatOps F) (buf : List UInt8) (off : ℕ) : Option F := do
  let u ← rdU32 buf off
  some (ops.ofBits u)

/-! ## The header -/

def MAGIC : UInt32 := 0x616b3432
def VERSION : ℤ := 2
def headerBytes : ℕ := 256

/-- Transformer hyper-parameters, as stored in the checkpoint header. -/
structure Config where
  dim : ℕ
  hiddenDim : ℕ
  nLayers : ℕ
  nHeads : ℕ
  nKvHeads : ℕ
  vocabSize : ℕ
  seqLen : ℕ
  groupSize : ℕ
  sharedClassifier : Bool
  deriving DecidableEq, Repr

def Config.headSize (c : Config) : Option ℕ := div c.dim c.nHeads

/-- Width of one key/value vector. -/
def Config.kvDim (M : Machine) (c : Config) : Option ℕ := do
  let d ← M.mul c.dim c.nKvHeads
  div d c.nHeads

inductive ModelError where
  | tooShort
  | badMagic (m : UInt32)
  | badVersion (v : ℤ)
  | badConfig
  | truncated
  deriving DecidableEq, Repr

/-! ## Tensors -/

/-- A quantized weight tensor: two pieces of the buffer. -/
structure QTensor where
  q : List UInt8
  s : List UInt8
  deriving DecidableEq, Repr

def QTensor.qi (t : QTensor) (i : ℕ) : Option ℤ := do
  let b ← t.q[i]?
  some b.toInt8.toInt

def QTensor.scale {F : Type} (M : Machine) (ops : FloatOps F) (t : QTensor) (group : ℕ) :
    Option F := do
  let off ← M.mul group 4
  rdF32 ops t.s off

/-- A contiguous run of `count` tensors of the same size. -/
structure QGroup where
  base : ℕ
  count : ℕ
  sizeEach : ℕ
  gs : ℕ
  deriving DecidableEq, Repr

namespace QGroup

/-- The bytes of the scales of one tensor. -/
def scaleBytes (M : Machine) (g : QGroup) : Option ℕ := do
  let groups ← div g.sizeEach g.gs
  M.mul groups 4

/-- Bytes occupied by one tensor: values and scales. -/
def stride (M : Machine) (g : QGroup) : Option ℕ := do
  let scales ← g.scaleBytes M
  M.add g.sizeEach scales

def total (M : Machine) (g : QGroup) : Option ℕ := do
  let stride ← g.stride M
  M.mul stride g.count

def tensor (M : Machine) (g : QGroup) (buf : List UInt8) (l : ℕ) : Option QTensor := do
  let stride ← g.stride M
  let skip ← M.mul l stride
  let off ← M.add g.base skip
  let qEnd ← M.add off g.sizeEach
  let q ← slice buf off qEnd
  let sOff ← M.add off g.sizeEach
  let scales ← g.scaleBytes M
  let sEnd ← M.add sOff scales
  let s ← slice buf sOff sEnd
  some ⟨q, s⟩

end QGroup

/-- A parsed view of a checkpoint: the buffer and where every group of weights starts. -/
structure Model where
  config : Config
  buf : List UInt8
  rmsAtt : ℕ
  rmsFfn : ℕ
  rmsFinal : ℕ
  qTokens : QGroup
  wq : QGroup
  wk : QGroup
  wv : QGroup
  wo : QGroup
  w1 : QGroup
  w2 : QGroup
  w3 : QGroup
  wcls : QGroup
  deriving DecidableEq, Repr

namespace Model

/-! ## Reading -/

/-- The length of every quantized tensor. -/
def lens (M : Machine) (c : Config) (kvDim : ℕ) : Option (List ℕ) := do
  let tokens ← M.mul c.vocabSize c.dim
  let wq ← M.mul c.dim c.dim
  let wk ← M.mul c.dim kvDim
  let wv ← M.mul c.dim kvDim
  let wo ← M.mul c.dim c.dim
  let w1 ← M.mul c.dim c.hiddenDim
  let w2 ← M.mul c.hiddenDim c.dim
  let w3 ← M.mul c.dim c.hiddenDim
  some [tokens, wq, wk, wv, wo, w1, w2, w3]

/-- The group at `off`, and the offset behind it. -/
def take (M : Machine) (gs count sizeEach off : ℕ) : Option (QGroup × ℕ) := do
  let g : QGroup := ⟨off, count, sizeEach, gs⟩
  let total ← g.total M
  let off ← M.add off total
  some (g, off)

/-- The walk over the payload: every offset, and the end. -/
def walk (M : Machine) (c : Config) (kvDim : ℕ) (buf : List UInt8) : Option (Model × ℕ) := do
  let gs := c.groupSize
  let rmsAtt := headerBytes
  let norms ← M.mul (← M.mul c.nLayers c.dim) 4
  let rmsFfn ← M.add rmsAtt norms
  let norms ← M.mul (← M.mul c.nLayers c.dim) 4
  let rmsFinal ← M.add rmsFfn norms
  let off ← M.add rmsFinal (← M.mul c.dim 4)
  let (qTokens, off) ← take M gs 1 (← M.mul c.vocabSize c.dim) off
  let (wq, off) ← take M gs c.nLayers (← M.mul c.dim c.dim) off
  let (wk, off) ← take M gs c.nLayers (← M.mul c.dim kvDim) off
  let (wv, off) ← take M gs c.nLayers (← M.mul c.dim kvDim) off
  let (wo, off) ← take M gs c.nLayers (← M.mul c.dim c.dim) off
  let (w1, off) ← take M gs c.nLayers (← M.mul c.dim c.hiddenDim) off
  let (w2, off) ← take M gs c.nLayers (← M.mul c.hiddenDim c.dim) off
  let (w3, off) ← take M gs c.nLayers (← M.mul c.dim c.hiddenDim) off
  let (wcls, off) ←
    if c.sharedClassifier then some (qTokens, off)
    else take M gs 1 (← M.mul c.dim c.vocabSize) off
  some (⟨c, buf, rmsAtt, rmsFfn, rmsFinal, qTokens, wq, wk, wv, wo, w1, w2, w3, wcls⟩, off)

/-- The first part of `Model::parse`: the header, with every number positive. -/
def parseHeader (buf : List UInt8) : Outcome ModelError Config :=
  if buf.length < headerBytes then .err .tooShort
  else do
    let magic ← Outcome.unwrap (rdU32 buf 0)
    if magic ≠ MAGIC then .err (.badMagic magic)
    else do
      let version ← Outcome.unwrap (rdI32 buf 4)
      if version ≠ VERSION then .err (.badVersion version)
      else do
        let dim ← Outcome.unwrap (rdI32 buf 8)
        let hiddenDim ← Outcome.unwrap (rdI32 buf 12)
        let nLayers ← Outcome.unwrap (rdI32 buf 16)
        let nHeads ← Outcome.unwrap (rdI32 buf 20)
        let nKvHeads ← Outcome.unwrap (rdI32 buf 24)
        let vocabSize ← Outcome.unwrap (rdI32 buf 28)
        let seqLen ← Outcome.unwrap (rdI32 buf 32)
        let shared ← Outcome.unwrap buf[36]?
        let groupSize ← Outcome.unwrap (rdI32 buf 37)
        if dim ≤ 0 ∨ hiddenDim ≤ 0 ∨ nLayers ≤ 0 ∨ nHeads ≤ 0 ∨ nKvHeads ≤ 0 ∨ vocabSize ≤ 0 ∨
            seqLen ≤ 0 ∨ groupSize ≤ 0 then .err .badConfig
        else .ok ⟨dim.toNat, hiddenDim.toNat, nLayers.toNat, nHeads.toNat, nKvHeads.toNat,
          vocabSize.toNat, seqLen.toNat, groupSize.toNat, shared ≠ 0⟩

/-- `Model::parse`: the header is checked, and that every declared tensor fits. -/
def parse (M : Machine) (buf : List UInt8) : Outcome ModelError Model := do
  let config ← parseHeader buf
  if config.dim % config.nHeads ≠ 0 then .err .badConfig
  else do
    let kvDim ← Outcome.unwrap (config.kvDim M)
    let lens ← Outcome.unwrap (lens M config kvDim)
    if lens.any fun len => len = 0 || len % config.groupSize ≠ 0 then .err .badConfig
    else do
      let (model, off) ← Outcome.unwrap (walk M config kvDim buf)
      if buf.length < off then .err .truncated else .ok model

/-- The norm weights of a layer, at `base`. -/
def normRow (M : Machine) (m : Model) (base l : ℕ) : Option (List UInt8) := do
  let skip ← M.mul (← M.mul l m.config.dim) 4
  let o ← M.add base skip
  let stop ← M.add o (← M.mul m.config.dim 4)
  slice m.buf o stop

def rmsAttRow (M : Machine) (m : Model) (l : ℕ) : Option (List UInt8) := m.normRow M m.rmsAtt l

def rmsFfnRow (M : Machine) (m : Model) (l : ℕ) : Option (List UInt8) := m.normRow M m.rmsFfn l

def rmsFinalRow (M : Machine) (m : Model) : Option (List UInt8) := do
  let stop ← M.add m.rmsFinal (← M.mul m.config.dim 4)
  slice m.buf m.rmsFinal stop

/-- `embed_row`: one row of the token embedding, dequantized into `out`. -/
def embedRow {F : Type} (M : Machine) (ops : FloatOps F) (m : Model) (token : ℕ) (out : List F) :
    Option (List F) := do
  let t ← m.qTokens.tensor M m.buf 0
  let base ← M.mul token m.config.dim
  upTo (fun i out => do
    let idx ← M.add base i
    let q ← t.qi idx
    let s ← t.scale M ops (← div idx m.config.groupSize)
    setAt out i (ops.mul (ops.ofInt q) s)) m.config.dim out

end Model

/-! ## Writing -/

/-- The weights of a model. -/
structure Tensors (F : Type) where
  rmsAtt : List F
  rmsFfn : List F
  rmsFinal : List F
  qTokens : List F
  wq : List (List F)
  wk : List (List F)
  wv : List (List F)
  wo : List (List F)
  w1 : List (List F)
  w2 : List (List F)
  w3 : List (List F)
  wcls : Option (List F)

section Write

variable {F : Type} (ops : FloatOps F)

/-- `x.to_le_bytes()` for all `xs`. -/
def putF32 (xs : List F) : List UInt8 := xs.flatMap fun x => Bytes.ofNat 4 (ops.toBits x).toNat

/-- The groups of `gs` numbers of a tensor. -/
def groups (gs : ℕ) (x : List F) : List (List F) :=
  (List.range (x.length / gs)).map fun g => (x.drop (g * gs)).take gs

/-- The largest absolute value. -/
def wmax (g : List F) : F :=
  g.foldl (fun w x => if ops.lt w (ops.abs x) then ops.abs x else w) (ops.lit 0)

def groupScale (g : List F) : F := ops.div (wmax ops g) (ops.lit 127)

/-- The quantized value of `x`. -/
def quantized (scale x : F) : Int8 :=
  ops.toI8 (if ops.eq scale (ops.lit 0) then ops.lit 0 else ops.round (ops.div x scale))

/-- `quantize_to_bytes`: the values of all groups, then the scales. -/
def quantizeToBytes (x : List F) (gs : ℕ) : List UInt8 :=
  ((groups gs x).flatMap fun g => g.map fun x => (quantized ops (groupScale ops g) x).toUInt8) ++
    putF32 ops ((groups gs x).map (groupScale ops))

/-- `(v as i32).to_le_bytes()`. -/
def putI32 (v : ℕ) : List UInt8 := Bytes.ofNat 4 v

/-- `out.resize(n, 0)`. -/
def resize (out : List UInt8) (n : ℕ) : List UInt8 :=
  out.take n ++ List.replicate (n - out.length) 0

/-- The header, padded. -/
def header (c : Config) : List UInt8 :=
  resize (Bytes.ofNat 4 MAGIC.toNat ++ Bytes.ofNat 4 VERSION.toNat ++
    [c.dim, c.hiddenDim, c.nLayers, c.nHeads, c.nKvHeads, c.vocabSize, c.seqLen].flatMap putI32 ++
    [c.sharedClassifier.toUInt8] ++ putI32 c.groupSize) headerBytes

/-- `write_v2`. -/
def writeV2 (c : Config) (t : Tensors F) : List UInt8 :=
  header c ++ putF32 ops t.rmsAtt ++ putF32 ops t.rmsFfn ++ putF32 ops t.rmsFinal ++
    quantizeToBytes ops t.qTokens c.groupSize ++
    ([t.wq, t.wk, t.wv, t.wo, t.w1, t.w2, t.w3].flatMap fun group =>
      group.flatMap fun w => quantizeToBytes ops w c.groupSize) ++
    (t.wcls.elim [] fun w => quantizeToBytes ops w c.groupSize)

end Write

/-! ## The export of the training code -/

/-- A transformer block of the training model. -/
structure Block (F : Type) where
  attNorm : List F
  ffnNorm : List F
  wq : List F
  wk : List F
  wv : List F
  wo : List F
  w1 : List F
  w2 : List F
  w3 : List F

/-- The training model; `lmHead` is the separate classifier, if there is one. -/
structure Llama (F : Type) where
  c : Config
  tok : List F
  blocks : List (Block F)
  finalNorm : List F
  lmHead : Option (List F)

namespace Llama

variable {F : Type} (ops : FloatOps F)

/-- `quant_q8` on one number of a group. -/
def quantOne (scale x : F) : Int8 :=
  let safe := if ops.eq scale (ops.lit 0) then ops.lit 1 else scale
  let q := ops.mul (ops.sign x)
    (ops.floor (ops.add (ops.abs (ops.div x safe)) (ops.lit (1 / 2))))
  let q := if ops.eq scale (ops.lit 0) then ops.lit 0 else q
  let q := if ops.lt q (ops.lit (-127)) then ops.lit (-127) else q
  ops.toI8 (if ops.lt (ops.lit 127) q then ops.lit 127 else q)

/-- `quant_q8`: a length that is no multiple of the group size fails the assertion. -/
def quantQ8 (x : List F) (gs : ℕ) : Option (List UInt8) :=
  if x.length % gs = 0 then
    some (((groups gs x).flatMap fun g =>
      g.map fun x => (quantOne ops (groupScale ops g) x).toUInt8) ++
        putF32 ops ((groups gs x).map (groupScale ops)))
  else none

/-- `struct.pack("<Ii7iBi", ...)`, padded to 256 bytes; a number that is no `i32` fails. -/
def packHeader (c : Config) (shared : Bool) (gs : ℕ) : Option (List UInt8) :=
  let fields := [c.dim, c.hiddenDim, c.nLayers, c.nHeads, c.nKvHeads, c.vocabSize, c.seqLen]
  if (∀ v ∈ fields, v < 2 ^ 31) ∧ gs < 2 ^ 31 then
    let packed := Bytes.ofNat 4 MAGIC.toNat ++ Bytes.ofNat 4 2 ++ fields.flatMap putI32 ++
      [if shared then 1 else 0] ++ putI32 gs
    some (packed ++ List.replicate (256 - packed.length) 0)
  else none

/-- The attributes of a block in the order of the export. -/
def attrs : List (Block F → List F) := [(·.wq), (·.wk), (·.wv), (·.wo), (·.w1), (·.w2), (·.w3)]

/-- `export`. -/
def exportV2 (model : Llama F) (gs : ℕ) : Option (List UInt8) := do
  let head ← packHeader model.c model.lmHead.isNone gs
  let tok ← quantQ8 ops model.tok gs
  let weights ← (attrs.flatMap fun attr => model.blocks.map attr).mapM fun w => quantQ8 ops w gs
  let cls ← model.lmHead.elim (some []) fun w => quantQ8 ops w gs
  some (head ++ model.blocks.flatMap (fun blk => putF32 ops blk.attNorm) ++
    model.blocks.flatMap (fun blk => putF32 ops blk.ffnNorm) ++ putF32 ops model.finalNorm ++
    tok ++ weights.flatten ++ cls)

/-- The tensors of the training model, as `write_v2` takes them. -/
def tensors (model : Llama F) : Tensors F where
  rmsAtt := model.blocks.flatMap Block.attNorm
  rmsFfn := model.blocks.flatMap Block.ffnNorm
  rmsFinal := model.finalNorm
  qTokens := model.tok
  wq := model.blocks.map Block.wq
  wk := model.blocks.map Block.wk
  wv := model.blocks.map Block.wv
  wo := model.blocks.map Block.wo
  w1 := model.blocks.map Block.w1
  w2 := model.blocks.map Block.w2
  w3 := model.blocks.map Block.w3
  wcls := model.lmHead

end Llama

end TinyLlm
