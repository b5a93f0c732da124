/-
# The packed model image

The `model` partition of the flash holds an image: a table of contents, and behind it the
tokenizer, the model and, from version 2 on, the word metadata and the embedding matrix.
Two programs pack it (`export_v2.py` and the examples of `tinyllm`), `load` of
`model_host.rs` finds the four windows again, and `PartReader` reads from one of them.

The lengths come from flash.  Read from an image that was packed they are what was packed
(`readHeader_of_packed`), and every window holds its blob.  Any other header is checked by
one sum only, of words of 32 bits: it bounds every window exactly if the sum itself does
not wrap (`inside_iff`).
-/
import PySpell.Lib.Bytes
import PySpell.Lib.Checked

open Checked

namespace ModelImage

/-- `usize` of the device, in a build with overflow checks or without. -/
def usize (checks : Bool) : Machine := ⟨32, checks, Machine.le_width_32⟩

/-! ## The packers -/

/-- The blobs of an image, those that it lacks empty. -/
structure Blobs where
  tok : List UInt8
  model : List UInt8
  wordmeta : List UInt8
  embed : List UInt8

def Blobs.toList (b : Blobs) : List (List UInt8) := [b.tok, b.model, b.wordmeta, b.embed]

/-- `b"PSM1"`. -/
def magic : List UInt8 := [80, 83, 77, 49]

/-- `struct.pack("<I..", ...)`, an error when a number has more than 32 bits. -/
def structPack (ns : List ℕ) : Option (List UInt8) :=
  if ∀ n ∈ ns, n < 2 ^ 32 then some (ns.flatMap (Bytes.ofNat 4)) else none

/-- The image of `export_v2.py`, with the word metadata and the embeddings or without. -/
def exportImage (tok model : List UInt8) :
    Option (List UInt8 × List UInt8) → Option (List UInt8)
  | some (wordmeta, embed) => do
    let toc ← structPack [2, tok.length, model.length, wordmeta.length, embed.length]
    some (magic ++ toc ++ (tok ++ model ++ wordmeta ++ embed))
  | none => do
    let toc ← structPack [1, tok.length, model.length]
    some (magic ++ toc ++ (tok ++ model))

/-- `x.to_le_bytes()` of a word that was cut to 32 bits. -/
def toLeBytes (n : ℕ) : List UInt8 := Bytes.ofNat 4 (n % 2 ^ 32)

/-- The image of `gen_toy_model` and `convert_legacy`. -/
def toyImage (tokenizer model : List UInt8) : List UInt8 :=
  magic ++ toLeBytes 1 ++ toLeBytes tokenizer.length ++ toLeBytes model.length ++
    tokenizer ++ model

/-- What the packers make of the blobs. -/
inductive Packed : Blobs → List UInt8 → Prop
  | v2 {tok model wordmeta embed image}
      (h : exportImage tok model (some (wordmeta, embed)) = some image) :
      Packed ⟨tok, model, wordmeta, embed⟩ image
  | v1 {tok model image} (h : exportImage tok model none = some image) :
      Packed ⟨tok, model, [], []⟩ image
  | toy (tok model) : Packed ⟨tok, model, [], []⟩ (toyImage tok model)

/-! ## The loader -/

/-- A flash partition: its bytes, at least a sector of them, and what
`esp_partition_read` makes of an offset and a length.  A read within the partition gives
its bytes. -/
structure Partition where
  data : List UInt8
  sector_le : 4096 ≤ data.length
  length_lt : data.length < 2 ^ 32
  read : ℕ → ℕ → Option (List UInt8)
  read_of_le : ∀ off n, off + n ≤ data.length → read off n = some (Bytes.slice data off n)

/-- `Toc`, less the partition. -/
structure Toc where
  tokOff : ℕ
  tokLen : ℕ
  modelOff : ℕ
  modelLen : ℕ
  wordmetaOff : ℕ
  wordmetaLen : ℕ
  embedOff : ℕ
  embedLen : ℕ

/-- The word at `i` of the table of contents. -/
def u (hdr : List UInt8) (i : ℕ) : ℕ := Bytes.toNat (Bytes.slice hdr i 4)

/-- What the table of contents declares: where the first blob begins, and the lengths. -/
structure Header where
  base : ℕ
  tokLen : ℕ
  modelLen : ℕ
  wordmetaLen : ℕ
  embedLen : ℕ

def readHeader (hdr : List UInt8) : Header :=
  if 2 ≤ u hdr 4 then ⟨24, u hdr 8, u hdr 12, u hdr 16, u hdr 20⟩
  else ⟨16, u hdr 8, u hdr 12, 0, 0⟩

/-- The offsets of the blobs and the check against the size of the partition. -/
def Header.toToc (M : Machine) (size : ℕ) (h : Header) : Option (Option Toc) := do
  let tokOff := h.base
  let modelOff ← M.add tokOff h.tokLen
  let wordmetaOff ← M.add modelOff h.modelLen
  let embedOff ← M.add wordmetaOff h.wordmetaLen
  let stop ← M.add embedOff h.embedLen
  if size < stop then some none
  else some (some ⟨tokOff, h.tokLen, modelOff, h.modelLen, wordmetaOff, h.wordmetaLen,
    embedOff, h.embedLen⟩)

/-- `load`: a panic of a checked sum, nothing, or the layout. -/
def load (M : Machine) (P : Partition) : Option (Option Toc) :=
  match P.read 0 24 with
  | none => some none
  | some hdr =>
    if hdr.take 4 ≠ magic then some none
    else (readHeader hdr).toToc M P.data.length

/-- `PartReader`: a window of the partition. -/
structure PartReader where
  base : ℕ
  len : ℕ

/-- `read_at`: the bytes that are read into a buffer of `want` bytes. -/
def PartReader.readAt (M : Machine) (P : Partition) (r : PartReader) (off want : ℕ) :
    Option (List UInt8) :=
  if r.len ≤ off then some []
  else do
    let n := min (r.len - off) want
    let start ← M.add r.base off
    some ((P.read start n).getD [])

/-- The readers of `tokenizer_source`, `model_source`, `wordmeta_source` and
`embeddings_source`. -/
def Toc.windows (t : Toc) : List PartReader :=
  [⟨t.tokOff, t.tokLen⟩, ⟨t.modelOff, t.modelLen⟩, ⟨t.wordmetaOff, t.wordmetaLen⟩,
    ⟨t.embedOff, t.embedLen⟩]

/-- The window lies inside a partition. -/
def PartReader.Inside (size : ℕ) (r : PartReader) : Prop := r.base + r.len ≤ size

/-- Where the image that a table of contents declares ends. -/
def Header.stop (h : Header) : ℕ :=
  h.base + h.tokLen + h.modelLen + h.wordmetaLen + h.embedLen

/-- The table of contents of a partition. -/
def Partition.header (P : Partition) : Header := readHeader (Bytes.slice P.data 0 24)

/-! ## Any table of contents -/

/-- The layout of a header whose sums do not wrap. -/
def Header.layout (h : Header) : Toc :=
  ⟨h.base, h.tokLen, h.base + h.tokLen, h.modelLen, h.base + h.tokLen + h.modelLen,
    h.wordmetaLen, h.base + h.tokLen + h.modelLen + h.wordmetaLen, h.embedLen⟩

theorem Header.toToc_of_lt {checks : Bool} {size : ℕ} {h : Header} (hlt : h.stop < 2 ^ 32) :
    h.toToc (usize checks) size = some (if size < h.stop then none else some h.layout) := by
  have hadd : ∀ {a b : ℕ}, a + b < 2 ^ 32 → (usize checks).add a b = some (a + b) :=
    fun hab => Machine.add_of_lt hab
  rw [Header.stop] at hlt ⊢
  simp only [Header.toToc, Header.layout, Option.bind_eq_bind]
  rw [hadd (by omega), Option.bind_some, hadd (by omega), Option.bind_some, hadd (by omega),
    Option.bind_some, hadd hlt, Option.bind_some]
  split_ifs
  · rfl
  · rfl

/-- Each offset of an accepted header is the sum before it as a word. -/
theorem Header.toToc_eq_some {checks : Bool} {size : ℕ} {h : Header} {t : Toc}
    (ht : h.toToc (usize checks) size = some (some t)) :
    (usize checks).add h.base h.tokLen = some t.modelOff ∧
    (usize checks).add t.modelOff h.modelLen = some t.wordmetaOff ∧
    (usize checks).add t.wordmetaOff h.wordmetaLen = some t.embedOff ∧
    (∃ stop, (usize checks).add t.embedOff h.embedLen = some stop ∧ stop ≤ size) ∧
    t.tokOff = h.base ∧ t.tokLen = h.tokLen ∧ t.modelLen = h.modelLen ∧
      t.wordmetaLen = h.wordmetaLen ∧ t.embedLen = h.embedLen := by
  simp only [Header.toToc, Option.bind_eq_bind] at ht
  obtain ⟨modelOff, hmodel, ht⟩ := Option.bind_eq_some_iff.mp ht
  obtain ⟨wordmetaOff, hwordmeta, ht⟩ := Option.bind_eq_some_iff.mp ht
  obtain ⟨embedOff, hembed, ht⟩ := Option.bind_eq_some_iff.mp ht
  obtain ⟨stop, hstop, ht⟩ := Option.bind_eq_some_iff.mp ht
  split_ifs at ht with hsize
  · cases ht
  · cases ht
    exact ⟨hmodel, hwordmeta, hembed, ⟨stop, hstop, by omega⟩, rfl, rfl, rfl, rfl, rfl⟩

/-- **The windows of an accepted header lie inside exactly if its sum does not wrap.** -/
theorem Header.inside_iff {checks : Bool} {size : ℕ} (hsize : size < 2 ^ 32) {h : Header}
    {t : Toc} (ht : h.toToc (usize checks) size = some (some t)) :
    (∀ w ∈ t.windows, w.Inside size) ↔ h.stop < 2 ^ 32 := by
  constructor
  · intro hin
    obtain ⟨hmodel, hwordmeta, hembed, -, htok, htokLen, hmodelLen, hwordmetaLen, hembedLen⟩ :=
      Header.toToc_eq_some ht
    -- a window inside leaves its end exact, and the next one begins there
    have htokIn : t.tokOff + t.tokLen ≤ size := hin ⟨t.tokOff, t.tokLen⟩ (by simp [Toc.windows])
    have hmodelIn : t.modelOff + t.modelLen ≤ size :=
      hin ⟨t.modelOff, t.modelLen⟩ (by simp [Toc.windows])
    have hwordmetaIn : t.wordmetaOff + t.wordmetaLen ≤ size :=
      hin ⟨t.wordmetaOff, t.wordmetaLen⟩ (by simp [Toc.windows])
    have hembedIn : t.embedOff + t.embedLen ≤ size :=
      hin ⟨t.embedOff, t.embedLen⟩ (by simp [Toc.windows])
    have hm := Machine.eq_of_fit hmodel (show _ < 2 ^ 32 by omega)
    have hw := Machine.eq_of_fit hwordmeta (show _ < 2 ^ 32 by omega)
    have he := Machine.eq_of_fit hembed (show _ < 2 ^ 32 by omega)
    rw [Header.stop]
    omega
  · intro hlt
    rw [Header.toToc_of_lt hlt, Option.some_inj] at ht
    split_ifs at ht with hstop
    obtain rfl := Option.some_inj.mp ht
    rw [Header.stop] at hstop
    intro w hw
    simp only [Toc.windows, Header.layout, List.mem_cons, List.not_mem_nil, or_false] at hw
    unfold PartReader.Inside
    rcases hw with rfl | rfl | rfl | rfl
    · show h.base + h.tokLen ≤ size
      omega
    · show h.base + h.tokLen + h.modelLen ≤ size
      omega
    · show h.base + h.tokLen + h.modelLen + h.wordmetaLen ≤ size
      omega
    · show h.base + h.tokLen + h.modelLen + h.wordmetaLen + h.embedLen ≤ size
      omega

/-- A table of contents is always read. -/
theorem load_eq (M : Machine) (P : Partition) :
    load M P = if P.data.take 4 ≠ magic then some none else P.header.toToc M P.data.length := by
  have hsector := P.sector_le
  have htake : (Bytes.slice P.data 0 24).take 4 = P.data.take 4 := by
    rw [Bytes.slice, List.drop_zero, List.take_take]
    rfl
  simp only [load]
  rw [P.read_of_le 0 24 (by omega)]
  show (if (Bytes.slice P.data 0 24).take 4 ≠ magic then _ else _) = _
  rw [htake]
  rfl

/-! ## Packed images -/

/-- A word of the table of contents is a word of the partition. -/
theorem u_header (data : List UInt8) {i : ℕ} (hi : i + 4 ≤ 24) :
    u (Bytes.slice data 0 24) i = u data i := by
  rw [u, u, Bytes.slice, Bytes.slice, Bytes.slice, List.drop_zero, List.drop_take, List.take_take,
    min_eq_left (by omega)]

/-- The first word. -/
theorem u_zero {n : ℕ} (hn : n < 2 ^ 32) (l : List UInt8) : u (Bytes.ofNat 4 n ++ l) 0 = n := by
  rw [u, Bytes.slice, List.drop_zero, List.take_left' (Bytes.length_ofNat 4 n)]
  exact Bytes.toNat_ofNat hn

/-- The words behind the first four bytes. -/
theorem u_append {w : List UInt8} (hw : w.length = 4) (l : List UInt8) (i : ℕ) :
    u (w ++ l) (i + 4) = u l i := by
  rw [u, u, show i + 4 = w.length + i by omega, Bytes.slice_append]

/-- A partition that begins with a table of contents of version 2. -/
theorem header_v2 {P : Partition} {tok model wordmeta embed : ℕ} {l : List UInt8}
    (h : P.data = magic ++ (Bytes.ofNat 4 2 ++ (Bytes.ofNat 4 tok ++ (Bytes.ofNat 4 model ++
      (Bytes.ofNat 4 wordmeta ++ (Bytes.ofNat 4 embed ++ l))))))
    (htok : tok < 2 ^ 32) (hmodel : model < 2 ^ 32) (hwordmeta : wordmeta < 2 ^ 32)
    (hembed : embed < 2 ^ 32) : P.header = ⟨24, tok, model, wordmeta, embed⟩ := by
  have hlen := Bytes.length_ofNat 4
  have hmagic : magic.length = 4 := rfl
  simp only [Partition.header, readHeader]
  rw [u_header _ (by omega), u_header _ (by omega), u_header _ (by omega), u_header _ (by omega),
    u_header _ (by omega), h, u_append hmagic _ 0, u_append hmagic _ 4, u_append hmagic _ 8,
    u_append hmagic _ 12, u_append hmagic _ 16, u_zero (by omega), if_pos le_rfl,
    u_append (hlen _) _ 0, u_append (hlen _) _ 4, u_append (hlen _) _ 8, u_append (hlen _) _ 12,
    u_zero htok, u_append (hlen _) _ 0, u_append (hlen _) _ 4, u_append (hlen _) _ 8,
    u_zero hmodel, u_append (hlen _) _ 0, u_append (hlen _) _ 4, u_zero hwordmeta,
    u_append (hlen _) _ 0, u_zero hembed]

/-- A partition that begins with a table of contents of version 1. -/
theorem header_v1 {P : Partition} {tok model : ℕ} {l : List UInt8}
    (h : P.data = magic ++ (Bytes.ofNat 4 1 ++ (Bytes.ofNat 4 tok ++ (Bytes.ofNat 4 model ++ l))))
    (htok : tok < 2 ^ 32) (hmodel : model < 2 ^ 32) : P.header = ⟨16, tok, model, 0, 0⟩ := by
  have hlen := Bytes.length_ofNat 4
  have hmagic : magic.length = 4 := rfl
  simp only [Partition.header, readHeader]
  rw [u_header _ (by omega), u_header _ (by omega), u_header _ (by omega), h,
    u_append hmagic _ 0, u_append hmagic _ 4, u_append hmagic _ 8, u_zero (by omega),
    if_neg (by omega), u_append (hlen _) _ 0, u_append (hlen _) _ 4, u_zero htok,
    u_append (hlen _) _ 0, u_zero hmodel]

/-! ### A flash that holds an image -/

/-- The blobs stand in the partition one behind the other, as its table of contents says. -/
structure Holds (P : Partition) (b : Blobs) (pre rest : List UInt8) : Prop where
  magic_eq : P.data.take 4 = magic
  data_eq : P.data = pre ++ (b.tok ++ (b.model ++ (b.wordmeta ++ (b.embed ++ rest))))
  header_eq : P.header =
    ⟨pre.length, b.tok.length, b.model.length, b.wordmeta.length, b.embed.length⟩

/-- Numbers that were packed. -/
theorem structPack_eq_some {ns : List ℕ} {l : List UInt8} (h : structPack ns = some l) :
    (∀ n ∈ ns, n < 2 ^ 32) ∧ l = ns.flatMap (Bytes.ofNat 4) := by
  unfold structPack at h
  split_ifs at h with hlt
  exact ⟨hlt, (Option.some_inj.mp h).symm⟩

/-- **A partition that begins with a packed image holds the blobs**, under the table of
contents that the packer wrote. -/
theorem holds_of_packed {P : Partition} {b : Blobs} {image : List UInt8} (h : Packed b image)
    (hpre : image <+: P.data) : ∃ pre rest, Holds P b pre rest := by
  obtain ⟨rest, hrest⟩ := hpre
  have htake : ∀ l, P.data = magic ++ l → P.data.take 4 = magic := by
    intro l hl
    rw [hl]
    exact List.take_left' rfl
  cases h with
  | @v2 tok model wordmeta embed _ h =>
    simp only [exportImage, Option.bind_eq_bind] at h
    obtain ⟨toc, htoc, h⟩ := Option.bind_eq_some_iff.mp h
    obtain ⟨hlt, rfl⟩ := structPack_eq_some htoc
    obtain rfl := Option.some_inj.mp h
    simp only [List.flatMap_cons, List.flatMap_nil, List.append_nil, List.append_assoc] at hrest
    refine ⟨magic ++ (Bytes.ofNat 4 2 ++ (Bytes.ofNat 4 tok.length ++ (Bytes.ofNat 4 model.length ++
      (Bytes.ofNat 4 wordmeta.length ++ Bytes.ofNat 4 embed.length)))), rest, htake _ hrest.symm,
      ?_, ?_⟩
    · rw [← hrest]
      simp only [List.append_assoc]
    · rw [header_v2 hrest.symm (hlt _ (by simp)) (hlt _ (by simp)) (hlt _ (by simp))
        (hlt _ (by simp))]
      simp [Bytes.length_ofNat, magic]
  | @v1 tok model _ h =>
    simp only [exportImage, Option.bind_eq_bind] at h
    obtain ⟨toc, htoc, h⟩ := Option.bind_eq_some_iff.mp h
    obtain ⟨hlt, rfl⟩ := structPack_eq_some htoc
    obtain rfl := Option.some_inj.mp h
    simp only [List.flatMap_cons, List.flatMap_nil, List.append_nil, List.append_assoc] at hrest
    refine ⟨magic ++ (Bytes.ofNat 4 1 ++ (Bytes.ofNat 4 tok.length ++ Bytes.ofNat 4 model.length)),
      rest, htake _ hrest.symm, ?_, ?_⟩
    · rw [← hrest]
      simp only [List.append_assoc, List.nil_append]
    · rw [header_v1 hrest.symm (hlt _ (by simp)) (hlt _ (by simp))]
      simp [Bytes.length_ofNat, magic]
  | toy tok model =>
    -- the image lies in the partition, so the lengths were not cut
    have hlength : tok.length < 2 ^ 32 ∧ model.length < 2 ^ 32 := by
      have hlt := P.length_lt
      rw [← hrest, toyImage] at hlt
      simp only [List.length_append] at hlt
      omega
    simp only [toyImage, toLeBytes, Nat.mod_eq_of_lt hlength.1, Nat.mod_eq_of_lt hlength.2,
      List.append_assoc] at hrest
    refine ⟨magic ++ (Bytes.ofNat 4 1 ++ (Bytes.ofNat 4 tok.length ++ Bytes.ofNat 4 model.length)),
      rest, htake _ hrest.symm, ?_, ?_⟩
    · rw [← hrest]
      simp only [List.append_assoc, List.nil_append]
      rfl
    · rw [header_v1 hrest.symm hlength.1 hlength.2]
      simp [Bytes.length_ofNat, magic]

/-- A window that holds a blob reads it, from any offset into any buffer. -/
theorem PartReader.readAt_eq {checks : Bool} {P : Partition} {pre blob rest : List UInt8}
    (h : P.data = pre ++ (blob ++ rest)) (off want : ℕ) :
    PartReader.readAt (usize checks) P ⟨pre.length, blob.length⟩ off want =
      some ((blob.drop off).take want) := by
  have hlt := P.length_lt
  have hlen := congrArg List.length h
  simp only [List.length_append] at hlen
  simp only [PartReader.readAt, Option.bind_eq_bind]
  split_ifs with hoff
  · rw [List.drop_eq_nil_of_le hoff, List.take_nil]
  · have hstart : (usize checks).add pre.length off = some (pre.length + off) :=
      Machine.add_of_lt (show _ < 2 ^ 32 by omega)
    have hread := P.read_of_le (pre.length + off) (min (blob.length - off) want) (by omega)
    have hwhole : ((blob.drop off).take want).length ≤ blob.length - off := by
      rw [List.length_take, List.length_drop]
      omega
    rw [hstart, Option.bind_some, hread, h, Bytes.slice_append, Option.getD_some, Bytes.slice,
      List.drop_append_of_le_length (by omega),
      List.take_append_of_le_length (by rw [List.length_drop]; omega), ← List.take_take,
      List.take_of_length_le hwhole]

/-- The blobs that a partition holds are found and read. -/
theorem Holds.load_eq {checks : Bool} {P : Partition} {b : Blobs} {pre rest : List UInt8}
    (h : Holds P b pre rest) :
    ∃ toc, load (usize checks) P = some (some toc) ∧
      List.Forall₂ (fun w blob => ∀ off want,
        PartReader.readAt (usize checks) P w off want = some ((blob.drop off).take want))
        toc.windows b.toList := by
  have hlt := P.length_lt
  have hdata := h.data_eq
  have hlen := congrArg List.length hdata
  simp only [List.length_append] at hlen
  have hstop : P.header.stop ≤ P.data.length := by
    simp only [h.header_eq, Header.stop]
    omega
  have hloaded : load (usize checks) P = some (some P.header.layout) := by
    rw [ModelImage.load_eq, if_neg (not_not_intro h.magic_eq), Header.toToc_of_lt (by omega),
      if_neg (by omega)]
  refine ⟨P.header.layout, hloaded, ?_⟩
  -- each blob stands behind all that stands before it
  have hat : ∀ {front blob behind : List UInt8} {base : ℕ}, P.data = front ++ (blob ++ behind) →
      front.length = base → ∀ off want, PartReader.readAt (usize checks) P ⟨base, blob.length⟩
        off want = some ((blob.drop off).take want) := by
    rintro front blob behind base hfront rfl
    exact PartReader.readAt_eq hfront
  have htok := hat hdata rfl
  have hmodel := hat (show P.data = (pre ++ b.tok) ++ (b.model ++ _) by
    rw [hdata, List.append_assoc]) List.length_append
  have hwordmeta := hat (show P.data = (pre ++ b.tok ++ b.model) ++ (b.wordmeta ++ _) by
    rw [hdata, List.append_assoc, List.append_assoc]) (by rw [List.length_append, List.length_append])
  have hembed := hat (show P.data = (pre ++ b.tok ++ b.model ++ b.wordmeta) ++ (b.embed ++ rest) by
    rw [hdata, List.append_assoc, List.append_assoc, List.append_assoc])
    (by rw [List.length_append, List.length_append, List.length_append])
  rw [h.header_eq]
  exact .cons htok (.cons hmodel (.cons hwordmeta (.cons hembed .nil)))

/-! ## The loader and the packers -/

/-- **What `load` finds.**  Of every packed image, the windows that read exactly the blobs,
at any offset and into a buffer of any size.  Of any other table of contents that it
accepts, windows that lie inside the partition exactly if the declared image ends below the
largest word. -/
theorem load_windows (checks : Bool) (P : Partition) :
    (∀ b image, Packed b image → image <+: P.data →
      ∃ toc, load (usize checks) P = some (some toc) ∧
        List.Forall₂ (fun w blob => ∀ off want,
          PartReader.readAt (usize checks) P w off want = some ((blob.drop off).take want))
          toc.windows b.toList) ∧
    ∀ toc, load (usize checks) P = some (some toc) →
      ((∀ w ∈ toc.windows, w.Inside P.data.length) ↔ P.header.stop < 2 ^ 32) := by
  constructor
  · intro b image hpacked hpre
    obtain ⟨pre, rest, hholds⟩ := holds_of_packed hpacked hpre
    exact hholds.load_eq
  · intro toc htoc
    rw [ModelImage.load_eq] at htoc
    by_cases hmagic : P.data.take 4 = magic
    · rw [if_neg (not_not_intro hmagic)] at htoc
      exact Header.inside_iff P.length_lt htoc
    · rw [if_pos hmagic] at htoc
      cases htoc

/-- A partition that refuses every read past its end. -/
def Partition.ofData (data : List UInt8) (h : 4096 ≤ data.length) (hlt : data.length < 2 ^ 32) :
    Partition where
  data := data
  sector_le := h
  length_lt := hlt
  read off n := if off + n ≤ data.length then some (Bytes.slice data off n) else none
  read_of_le _ _ hle := if_pos hle

/-- A table of contents of version 1 whose tokenizer has `2 ^ 32 - 16` bytes. -/
def wrapped : List UInt8 :=
  magic ++ (Bytes.ofNat 4 1 ++ (Bytes.ofNat 4 (2 ^ 32 - 16) ++ (Bytes.ofNat 4 0 ++
    List.replicate 4080 0)))

theorem length_wrapped : wrapped.length = 4096 := by
  simp only [wrapped, List.length_append, Bytes.length_ofNat, List.length_replicate]
  rfl

/-- **A length that wraps is accepted**: the sum comes back to 0, and the window of the
tokenizer reaches far past the end of the partition. -/
theorem load_accepts_wrapped :
    ¬ ∀ (P : Partition) (toc : Toc), load (usize false) P = some (some toc) →
      ∀ w ∈ toc.windows, w.Inside P.data.length := by
  intro h
  let P := Partition.ofData wrapped length_wrapped.ge (by rw [length_wrapped]; omega)
  have hheader : P.header = ⟨16, 2 ^ 32 - 16, 0, 0, 0⟩ := header_v1 rfl (by omega) (by omega)
  have hloaded : load (usize false) P =
      some (some ⟨16, 2 ^ 32 - 16, 0, 0, 0, 0, 0, 0⟩) := by
    have hmagic : P.data.take 4 = magic := List.take_left' rfl
    rw [ModelImage.load_eq, hheader, if_neg (not_not_intro hmagic),
      show P.data.length = 4096 from length_wrapped]
    rfl
  have hinside : 16 + (2 ^ 32 - 16) ≤ wrapped.length :=
    h P _ hloaded ⟨16, 2 ^ 32 - 16⟩ (by simp [Toc.windows])
  rw [length_wrapped] at hinside
  omega

end ModelImage
