/-
# The forward pass

`forward` runs one decode step of the transformer on a `RunState`: the embedding of the
token, the layers (attention over the cached keys and values, then the feed-forward part),
and the classifier.  The cache holds `f32` numbers, or `int8` numbers with a scale for each
head.

Indices are machine words, and every access and every operation on an index may panic; the
numbers themselves never decide what is accessed.
-/
import PySpell.Checkpoint

open Checked

namespace TinyLlm

variable {F : Type} (ops : FloatOps F) (M : Machine)

/-! ## Numeric primitives -/

/-- `rmsnorm`. -/
def rmsnorm (out x : List F) (weightBytes : List UInt8) : Option (List F) := do
  let n := x.length
  let ss := x.foldl (fun ss v => ops.add ss (ops.mul v v)) (ops.lit 0)
  let ss := ops.add (ops.div ss (ops.ofInt n)) (ops.lit (1 / 100000))
  let ss := ops.div (ops.lit 1) (ops.sqrt ss)
  upTo (fun i out => do
    let w ← rdF32 ops weightBytes (← M.mul i 4)
    let v ← x[i]?
    setAt out i (ops.mul w (ops.mul ss v))) n out

/-- `softmax`, in place. -/
def softmax (x : List F) : List F :=
  match x with
  | [] => []
  | x₀ :: _ =>
    let max := x.foldl (fun max v => if ops.lt max v then v else max) x₀
    let x := x.map fun v => ops.exp (ops.sub v max)
    let sum := x.foldl ops.add (ops.lit 0)
    if ops.lt (ops.lit 0) sum then x.map fun v => ops.div v sum else x

/-- The largest absolute value of a group of `x`. -/
def quantizeMax (x : List F) (base gs : ℕ) : Option F :=
  upTo (fun k wmax => do
    let v ← x[← M.add base k]?
    let a := ops.abs v
    some (if ops.lt wmax a then a else wmax)) gs (ops.lit 0)

/-- One group of `quantize`. -/
def quantizeGroup (x : List F) (gs g : ℕ) (qs : List Int8 × List F) :
    Option (List Int8 × List F) := do
  let (q, s) := qs
  let base ← M.mul g gs
  let wmax ← quantizeMax ops M x base gs
  let scale := ops.div wmax (ops.lit 127)
  let s ← setAt s g scale
  let q ← upTo (fun k q => do
    let i ← M.add base k
    let v ← x[i]?
    setAt q i (quantized ops scale v)) gs q
  some (q, s)

/-- `quantize`: values and scales of all groups. -/
def quantize (q : List Int8) (s x : List F) (gs : ℕ) : Option (List Int8 × List F) := do
  let numGroups ← div x.length gs
  upTo (quantizeGroup ops M x gs) numGroups (q, s)

/-- `a + b` as an `i32`. -/
def addI32 (a b : ℤ) : Option ℤ := if -2 ^ 31 ≤ a + b ∧ a + b < 2 ^ 31 then some (a + b) else none

/-- The inner product of a group, as an `i32`. -/
def groupProduct (xq : List Int8) (w : QTensor) (row j gs : ℕ) : Option ℤ :=
  upTo (fun k ival => do
    let a ← xq[← M.add j k]?
    let b ← w.qi (← M.add (← M.add row j) k)
    addI32 ival (a.toInt * b)) gs 0

/-- One group of a row of `matmul`. -/
def matmulGroup (xq : List Int8) (xs : List F) (w : QTensor) (row gs j : ℕ) (val : F) :
    Option F := do
  let ival ← groupProduct M xq w row j gs
  let ws ← w.scale M ops (← div (← M.add row j) gs)
  let x ← xs[← div j gs]?
  some (ops.add val (ops.mul (ops.mul (ops.ofInt ival) ws) x))

/-- `matmul`: one row for each output. -/
def matmul (out : List F) (xq : List Int8) (xs : List F) (w : QTensor) (n d gs : ℕ) :
    Option (List F) :=
  upTo (fun i out => do
    let row ← M.mul i n
    let val ← whileBelow M n gs (matmulGroup ops M xq xs w row gs) (n + 1) 0 (ops.lit 0)
    setAt out i val) d out

def silu (x : F) : F :=
  ops.mul x (ops.div (ops.lit 1) (ops.add (ops.lit 1) (ops.exp (ops.neg x))))

/-! ## The state -/

/-- `RunState`: scratch for one token, and the cache of keys and values. -/
structure RunState (F : Type) where
  x : List F
  xb : List F
  xb2 : List F
  hb : List F
  hb2 : List F
  xqQ : List Int8
  xqS : List F
  hqQ : List Int8
  hqS : List F
  q : List F
  k : List F
  v : List F
  att : List F
  logits : List F
  ctx : ℕ
  int8 : Bool
  keyCache : List F
  valueCache : List F
  keyQ : List Int8
  valQ : List Int8
  keyS : List F
  valS : List F

/-- `zf` and `zi`: `n` zeros of `bytes` bytes each, if the heap has room for them. -/
def zeros {α : Type} (heap : ℕ → Bool) (bytes : ℕ) (zero : α) (n : ℕ) : Option (List α) :=
  if n * bytes < 2 ^ (M.width - 1) ∧ heap (n * bytes) then some (List.replicate n zero) else none

/-- `RunState::try_with_cache`. -/
def RunState.tryWithCache (heap : ℕ → Bool) (c : Config) (ctx : ℕ) (int8 : Bool) :
    Option (RunState F) := do
  let zf n := zeros M heap 4 (ops.lit 0) n
  let zi n := zeros M heap 1 (0 : Int8) n
  let kvDim ← c.kvDim M
  let gs := c.groupSize
  let cache ← M.mul (← M.mul c.nLayers ctx) kvDim
  let scales ← M.mul (← M.mul c.nLayers ctx) c.nKvHeads
  let x ← zf c.dim
  let xb ← zf c.dim
  let xb2 ← zf c.dim
  let hb ← zf c.hiddenDim
  let hb2 ← zf c.hiddenDim
  let xqQ ← zi c.dim
  let xqS ← zf (← div c.dim gs)
  let hqQ ← zi c.hiddenDim
  let hqS ← zf (← div c.hiddenDim gs)
  let q ← zf c.dim
  let k ← zf kvDim
  let v ← zf kvDim
  let att ← zf (← M.mul c.nHeads ctx)
  let logits ← zf c.vocabSize
  let keyCache ← zf (if int8 then 0 else cache)
  let valueCache ← zf (if int8 then 0 else cache)
  let keyQ ← zi (if int8 then cache else 0)
  let valQ ← zi (if int8 then cache else 0)
  let keyS ← zf (if int8 then scales else 0)
  let valS ← zf (if int8 then scales else 0)
  some ⟨x, xb, xb2, hb, hb2, xqQ, xqS, hqQ, hqS, q, k, v, att, logits, ctx, int8, keyCache,
    valueCache, keyQ, valQ, keyS, valS⟩

/-! ## Attention -/

/-- `xs[i] = f xs[i] ys[i]` for all `i` below `n`. -/
def zipInto (f : F → F → F) (n : ℕ) (xs ys : List F) : Option (List F) :=
  upTo (fun i xs => do
    let a ← xs[i]?
    let b ← ys[i]?
    setAt xs i (f a b)) n xs

/-- One pair of `xs` turned by an angle. -/
def rotate (fcr fci : F) (i : ℕ) (xs : List F) : Option (List F) := do
  let next ← M.add i 1
  let v0 ← xs[i]?
  let v1 ← xs[next]?
  let xs ← setAt xs i (ops.sub (ops.mul v0 fcr) (ops.mul v1 fci))
  setAt xs next (ops.add (ops.mul v0 fci) (ops.mul v1 fcr))

/-- RoPE at `i`: a pair of `q`, and a pair of `k` while `k` has one. -/
def ropePair (kvDim headSize pos i : ℕ) (s : RunState F) : Option (RunState F) := do
  let headDim := ops.ofInt (← mod i headSize)
  let freq := ops.div (ops.lit 1)
    (ops.pow (ops.lit 10000) (ops.div headDim (ops.ofInt headSize)))
  let val := ops.mul (ops.ofInt pos) freq
  let rotn := if i < kvDim then 2 else 1
  upTo (fun vsel s =>
    if vsel = 0 then do
      let q ← rotate ops M (ops.cos val) (ops.sin val) i s.q
      some { s with q }
    else do
      let k ← rotate ops M (ops.cos val) (ops.sin val) i s.k
      some { s with k }) rotn s

def rope (dim kvDim headSize pos : ℕ) (s : RunState F) : Option (RunState F) :=
  whileBelow M dim 2 (ropePair ops M kvDim headSize pos) (dim + 1) 0 s

/-- A row of the `int8` cache: the first `kvDim` numbers of `x`, with a scale for each
head. -/
def storeInt8 (kvDim headSize nkv row si : ℕ) (x : List F) (cache : List Int8)
    (scales : List F) : Option (List Int8 × List F) := do
  let q ← slice cache row (← M.add row kvDim)
  let sc ← slice scales si (← M.add si nkv)
  let x ← slice x 0 kvDim
  let (q, sc) ← quantize ops M q sc x headSize
  some (splice cache row q, splice scales si sc)

/-- A row of the `f32` cache. -/
def storeF32 (kvDim row : ℕ) (x cache : List F) : Option (List F) := do
  let dst ← slice cache row (← M.add row kvDim)
  let x ← slice x 0 kvDim
  let dst ← copyFromSlice dst x
  some (splice cache row dst)

/-- The key and the value of this position are put into the cache. -/
def appendKv (c : Config) (kvDim headSize l pos : ℕ) (s : RunState F) : Option (RunState F) := do
  let loff ← M.mul (← M.mul l s.ctx) kvDim
  let row ← M.add loff (← M.mul pos kvDim)
  if s.int8 then do
    let nkv := c.nKvHeads
    let si ← M.mul (← M.add (← M.mul l s.ctx) pos) nkv
    let (keyQ, keyS) ← storeInt8 ops M kvDim headSize nkv row si s.k s.keyQ s.keyS
    let (valQ, valS) ← storeInt8 ops M kvDim headSize nkv row si s.v s.valQ s.valS
    some { s with keyQ, keyS, valQ, valS }
  else do
    let keyCache ← storeF32 M kvDim row s.k s.keyCache
    let valueCache ← storeF32 M kvDim row s.v s.valueCache
    some { s with keyCache, valueCache }

/-- The sum of `term q[qoff + j] cache[koff + j]`. -/
def dot {α : Type} (term : F → α → F) (qoff koff n : ℕ) (q : List F) (cache : List α) :
    Option F :=
  upTo (fun j score => do
    let a ← q[← M.add qoff j]?
    let b ← cache[← M.add koff j]?
    some (ops.add score (term a b))) n (ops.lit 0)

/-- `xb[xboff + j] += term cache[voff + j]`. -/
def blend {α : Type} (term : α → F) (xboff voff n : ℕ) (cache : List α) (xb : List F) :
    Option (List F) :=
  upTo (fun j xb => do
    let i ← M.add xboff j
    let b ← xb[i]?
    let v ← cache[← M.add voff j]?
    setAt xb i (ops.add b (term v))) n xb

/-- The scale of a cached vector, for the head that `h` shares. -/
def cachedScale (c : Config) (kvMul l t h ctx : ℕ) (scales : List F) : Option F := do
  let i ← M.mul (← M.add (← M.mul l ctx) t) c.nKvHeads
  scales[← M.add i (← div h kvMul)]?

/-- The query of head `h` times the key at `koff`. -/
def headScore (c : Config) (headSize kvMul l h t qoff koff : ℕ) (s : RunState F) : Option F :=
  if s.int8 then do
    let ks ← cachedScale M c kvMul l t h s.ctx s.keyS
    dot ops M (fun q k => ops.mul (ops.mul q (ops.ofInt k.toInt)) ks) qoff koff headSize s.q s.keyQ
  else dot ops M ops.mul qoff koff headSize s.q s.keyCache

/-- The score of head `h` against the key of position `t`. -/
def scoreAt (c : Config) (kvDim headSize kvMul loff l h qoff aoff kvh t : ℕ) (s : RunState F) :
    Option (RunState F) := do
  let koff ← M.add (← M.add loff (← M.mul t kvDim)) kvh
  let score ← headScore ops M c headSize kvMul l h t qoff koff s
  let scale := ops.div (ops.lit 1) (ops.sqrt (ops.ofInt headSize))
  let att ← setAt s.att (← M.add aoff t) (ops.mul score scale)
  some { s with att }

/-- The output of head `h` with `a` times the value at `voff`. -/
def headBlend (c : Config) (headSize kvMul l h t xboff voff : ℕ) (a : F) (s : RunState F) :
    Option (List F) :=
  if s.int8 then do
    let vs ← cachedScale M c kvMul l t h s.ctx s.valS
    blend ops M (fun v : Int8 => ops.mul (ops.mul a (ops.ofInt v.toInt)) vs) xboff voff headSize
      s.valQ s.xb
  else blend ops M (ops.mul a) xboff voff headSize s.valueCache s.xb

/-- The value of position `t`, weighted by its score. -/
def blendAt (c : Config) (kvDim headSize kvMul loff l h xboff aoff kvh t : ℕ) (s : RunState F) :
    Option (RunState F) := do
  let voff ← M.add (← M.add loff (← M.mul t kvDim)) kvh
  let a ← s.att[← M.add aoff t]?
  let xb ← headBlend ops M c headSize kvMul l h t xboff voff a s
  some { s with xb }

/-- The scores up to `pos` are turned into weights. -/
def weighScores (aoff pos : ℕ) (s : RunState F) : Option (RunState F) := do
  let row ← slice s.att aoff (← M.add (← M.add aoff pos) 1)
  some { s with att := splice s.att aoff (softmax ops row) }

/-- `xb[xboff + j] = 0` for the numbers of a head. -/
def clearHead (xboff headSize : ℕ) (xb : List F) : Option (List F) :=
  upTo (fun j xb => do setAt xb (← M.add xboff j) (ops.lit 0)) headSize xb

/-- Attention of head `h` over the positions up to `pos`. -/
def attendHead (c : Config) (kvDim headSize kvMul loff l pos h : ℕ) (s : RunState F) :
    Option (RunState F) := do
  let qoff ← M.mul h headSize
  let aoff ← M.mul h s.ctx
  let kvh ← M.mul (← div h kvMul) headSize
  let s ← upTo (scoreAt ops M c kvDim headSize kvMul loff l h qoff aoff kvh) (pos + 1) s
  let s ← weighScores ops M aoff pos s
  let xboff ← M.mul h headSize
  let xb ← clearHead ops M xboff headSize s.xb
  upTo (blendAt ops M c kvDim headSize kvMul loff l h xboff aoff kvh) (pos + 1) { s with xb }

/-! ## The pass -/

/-- The first part of a layer: norm, and the query, key and value of this position. -/
def project (m : Model) (kvDim l : ℕ) (s : RunState F) : Option (RunState F) := do
  let c := m.config
  let xb ← rmsnorm ops M s.xb s.x (← m.rmsAttRow M l)
  let (xqQ, xqS) ← quantize ops M s.xqQ s.xqS xb c.groupSize
  let q ← matmul ops M s.q xqQ xqS (← m.wq.tensor M m.buf l) c.dim c.dim c.groupSize
  let k ← matmul ops M s.k xqQ xqS (← m.wk.tensor M m.buf l) c.dim kvDim c.groupSize
  let v ← matmul ops M s.v xqQ xqS (← m.wv.tensor M m.buf l) c.dim kvDim c.groupSize
  some { s with xb, xqQ, xqS, q, k, v }

/-- Rotation, the cache, and all heads. -/
def attend (c : Config) (kvDim kvMul headSize pos l : ℕ) (s : RunState F) :
    Option (RunState F) := do
  let s ← rope ops M c.dim kvDim headSize pos s
  let s ← appendKv ops M c kvDim headSize l pos s
  let loff ← M.mul (← M.mul l s.ctx) kvDim
  upTo (attendHead ops M c kvDim headSize kvMul loff l pos) c.nHeads s

/-- The output projection, added to the residual. -/
def projectOut (m : Model) (l : ℕ) (s : RunState F) : Option (RunState F) := do
  let c := m.config
  let (xqQ, xqS) ← quantize ops M s.xqQ s.xqS s.xb c.groupSize
  let xb2 ← matmul ops M s.xb2 xqQ xqS (← m.wo.tensor M m.buf l) c.dim c.dim c.groupSize
  let x ← zipInto ops.add c.dim s.x xb2
  some { s with x, xb2, xqQ, xqS }

/-- The feed-forward part, added to the residual. -/
def feedForward (m : Model) (l : ℕ) (s : RunState F) : Option (RunState F) := do
  let c := m.config
  let xb ← rmsnorm ops M s.xb s.x (← m.rmsFfnRow M l)
  let (xqQ, xqS) ← quantize ops M s.xqQ s.xqS xb c.groupSize
  let hb ← matmul ops M s.hb xqQ xqS (← m.w1.tensor M m.buf l) c.dim c.hiddenDim c.groupSize
  let hb2 ← matmul ops M s.hb2 xqQ xqS (← m.w3.tensor M m.buf l) c.dim c.hiddenDim c.groupSize
  let hb ← zipInto (fun a b => ops.mul (silu ops a) b) c.hiddenDim hb hb2
  let (hqQ, hqS) ← quantize ops M s.hqQ s.hqS hb c.groupSize
  let xb ← matmul ops M xb hqQ hqS (← m.w2.tensor M m.buf l) c.hiddenDim c.dim c.groupSize
  let x ← zipInto ops.add c.dim s.x xb
  some { s with x, xb, xqQ, xqS, hb, hb2, hqQ, hqS }

/-- One layer. -/
def layer (m : Model) (kvDim kvMul headSize pos l : ℕ) (s : RunState F) :
    Option (RunState F) := do
  let s ← project ops M m kvDim l s
  let s ← attend ops M m.config kvDim kvMul headSize pos l s
  let s ← projectOut ops M m l s
  feedForward ops M m l s

/-- The final norm and the classifier. -/
def classify (m : Model) (s : RunState F) : Option (RunState F) := do
  let c := m.config
  let xb ← copyFromSlice s.xb s.x
  let x ← rmsnorm ops M s.x xb (← m.rmsFinalRow M)
  let (xqQ, xqS) ← quantize ops M s.xqQ s.xqS x c.groupSize
  let logits ← matmul ops M s.logits xqQ xqS (← m.wcls.tensor M m.buf 0) c.dim c.vocabSize
    c.groupSize
  some { s with x, xb, xqQ, xqS, logits }

/-- `Transformer::forward`: one decode step for `token` at position `pos`. -/
def forward (m : Model) (s : RunState F) (token pos : ℕ) : Option (RunState F) := do
  let c := m.config
  let kvDim ← c.kvDim M
  let kvMul ← div c.nHeads c.nKvHeads
  let headSize ← c.headSize
  let x ← m.embedRow M ops token s.x
  let s ← upTo (layer ops M m kvDim kvMul headSize pos) c.nLayers { s with x }
  classify ops M m s

end TinyLlm
