/-
# The size of a parsed program

The parser builds a comparison chain out of its comparisons, and an operand between two
of them stands in both trees (`cmp_expr` clones it).  So a chain in such a middle operand
is there twice, a chain in one of its middle operands four times, and so on: where the
chains nest `d` deep, the program has up to `2 ^ d` nodes for a token (`size_le_of_parse`).
No constant bounds the nodes for every text (`parse_not_linear`).
-/
import Mathlib.Data.List.Forall2
import Mathlib.Tactic.Linarith
import PySpell.GrammarProgram

open TokenParser Parse Text

/-! ## Nodes -/

mutual

/-- The number of nodes of a tree. -/
def Expr.size : Expr → ℕ
  | .const _ | .var _ | .local _ => 1
  | .bin _ a b | .cmp _ a b | .bool _ a b => a.size + b.size + 1
  | .unary _ a => a.size + 1
  | .index l i => l.size + i.size + 1
  | .ite c t e => c.size + t.size + e.size + 1
  | .call _ args => Expr.sizeAll args + 1
  | .list items => Expr.sizeAll items + 1

def Expr.sizeAll : List Expr → ℕ
  | [] => 0
  | e :: es => e.size + Expr.sizeAll es

end

/-- The number of nodes of a program: those of its bindings and of its result. -/
def Program.size (p : Program) : ℕ := Expr.sizeAll (p.body.map LetBinding.expr) + p.ret.size

namespace Grammar

mutual

/-- A slot is a node, as the name was. -/
theorem size_resolveIn (locals : List (String × UInt16)) : ∀ e : Expr,
    (resolveIn locals e).size = e.size
  | .const _ | .local _ => rfl
  | .var name => by
    rw [resolveIn, nameTree]
    split <;> rfl
  | .bin _ a b | .cmp _ a b | .bool _ a b => by
    rw [resolveIn, Expr.size, Expr.size, size_resolveIn locals a, size_resolveIn locals b]
  | .unary _ a => by rw [resolveIn, Expr.size, Expr.size, size_resolveIn locals a]
  | .index l i => by
    rw [resolveIn, Expr.size, Expr.size, size_resolveIn locals l, size_resolveIn locals i]
  | .ite c t e => by
    rw [resolveIn, Expr.size, Expr.size, size_resolveIn locals c, size_resolveIn locals t,
      size_resolveIn locals e]
  | .call _ args => by rw [resolveIn, Expr.size, Expr.size, size_resolveAll locals args]
  | .list items => by rw [resolveIn, Expr.size, Expr.size, size_resolveAll locals items]

/-- Putting slots for names changes no size. -/
theorem size_resolveAll (locals : List (String × UInt16)) : ∀ es : List Expr,
    Expr.sizeAll (resolveAll locals es) = Expr.sizeAll es
  | [] => rfl
  | e :: es => by
    rw [resolveAll, Expr.sizeAll, Expr.sizeAll, size_resolveIn locals e, size_resolveAll locals es]

end

/-- A comparison has its operands and a node for each of its tokens. -/
theorem size_comparison (k : CmpKind) (a b : Expr) :
    (comparison k a b).size = a.size + b.size + (cmpToks k).length := by
  cases k with
  | cmp op => cases op <;> rfl
  | isIn => simp [comparison, cmpToks, Expr.size, Expr.sizeAll]; omega
  | notIn => simp [comparison, cmpToks, Expr.size, Expr.sizeAll]; omega

/-! ## How deep the chains nest -/

/-- In `w` stands `x < m < y`, so that `m` is an operand in the middle of a chain. -/
def Middle (lang : Lang) (w m : List Tok) : Prop :=
  ∃ x a k b k' y c, Derives lang .add x a ∧ Derives lang .add m b ∧ Derives lang .add y c ∧
    x ++ (cmpToks k ++ (m ++ (cmpToks k' ++ y))) <:+: w

/-- **The chains of `w` nest at most `d` deep** in one another's middle operands. -/
def ChainsNest (lang : Lang) : ℕ → List Tok → Prop
  | 0, w => ∀ m, ¬ Middle lang w m
  | d + 1, w => ∀ m, Middle lang w m → ChainsNest lang d m

section Nesting

variable {lang : Lang} {d : ℕ} {w v m : List Tok} {t : Tok}

/-- A chain in a part of the text is a chain of the text. -/
theorem Middle.mono (h : Middle lang v m) (hv : v <:+: w) : Middle lang w m := by
  obtain ⟨x, a, k, b, k', y, c, hx, hm, hy, hinfix⟩ := h
  exact ⟨x, a, k, b, k', y, c, hx, hm, hy, hinfix.trans hv⟩

/-- A part of a text nests at most as deep as the text. -/
theorem ChainsNest.mono (h : ChainsNest lang d w) (hv : v <:+: w) : ChainsNest lang d v := by
  cases d with
  | zero => exact fun m hm => h m (hm.mono hv)
  | succ d => exact fun m hm => h m (hm.mono hv)

/-- So does its beginning. -/
theorem ChainsNest.left (h : ChainsNest lang d (w ++ v)) : ChainsNest lang d w :=
  h.mono (List.prefix_append w v).isInfix

/-- So does its end. -/
theorem ChainsNest.right (h : ChainsNest lang d (w ++ v)) : ChainsNest lang d v :=
  h.mono (List.suffix_append w v).isInfix

/-- So does what follows its first token. -/
theorem ChainsNest.tail (h : ChainsNest lang d (t :: w)) : ChainsNest lang d w :=
  h.mono (List.suffix_cons t w).isInfix

/-- The token makes a comparison. -/
def isComparison (t : Tok) : Bool :=
  match t with
  | .eqEq | .ne | .lt | .le | .gt | .ge | .inKw => true
  | _ => false

/-- A comparison counts once, `not in` included: `not` alone compares nothing. -/
theorem countP_cmpToks (k : CmpKind) : (cmpToks k).countP isComparison = 1 := by
  cases k with
  | cmp op => cases op <;> rfl
  | isIn => rfl
  | notIn => rfl

/-- A middle operand has at least two comparisons fewer. -/
theorem Middle.countP (h : Middle lang w m) :
    m.countP isComparison + 2 ≤ w.countP isComparison := by
  obtain ⟨x, a, k, b, k', y, c, -, -, -, hinfix⟩ := h
  have hle := hinfix.sublist.countP_le (p := isComparison)
  simp only [List.countP_append, countP_cmpToks] at hle
  omega

/-- Two comparisons for every level: the chains of any text nest finitely deep. -/
theorem chainsNest_of_countP : ∀ {d : ℕ} {w : List Tok},
    w.countP isComparison < 2 * (d + 1) → ChainsNest lang d w
  | 0, w, h => fun m hm => by
    have := hm.countP
    omega
  | d + 1, w, h => fun m hm => chainsNest_of_countP (by
    have := hm.countP
    omega)

end Nesting

/-! ## The bound -/

/-- At most `2 ^ d` nodes for each token of `w`, where its chains nest at most `d` deep. -/
def Bounded (lang : Lang) (nodes : ℕ) (w : List Tok) : Prop :=
  ∀ d, ChainsNest lang d w → nodes ≤ 2 ^ d * w.length

namespace Bounded

variable {lang : Lang} {m n : ℕ} {w v : List Tok} {t : Tok}

/-- No nodes need no tokens. -/
theorem nil : Bounded lang 0 [] := fun _ _ => Nat.zero_le _

/-- Fewer nodes are bounded as well. -/
theorem mono (h : Bounded lang n w) (hm : m ≤ n) : Bounded lang m w := fun d hd =>
  hm.trans (h d hd)

/-- Two parts: their tokens add up, and neither nests deeper than the whole. -/
theorem append (h : Bounded lang m w) (hv : Bounded lang n v) : Bounded lang (m + n) (w ++ v) := by
  intro d hd
  rw [List.length_append, Nat.mul_add]
  exact Nat.add_le_add (h d hd.left) (hv d hd.right)

/-- A token pays for a node. -/
theorem cons (h : Bounded lang n w) : Bounded lang (n + 1) (t :: w) := by
  intro d hd
  have := h d hd.tail
  have := Nat.two_pow_pos d
  rw [List.length_cons, Nat.mul_succ]
  omega

/-- A closing token need not pay. -/
theorem closed (h : Bounded lang n w) : Bounded lang n (w ++ [t]) :=
  (h.append nil.cons).mono (Nat.le_succ n)

end Bounded

/-- What a derivation says of its nodes.  The list of some items is no node.  In a chain the
last operand stands apart, for the next comparison repeats it. -/
def Fits (lang : Lang) : Sym → List Tok → Expr → Prop
  | .items, w, e => Bounded lang (e.size - 1) w
  | .chain last, w, e => ∃ u v x a k, w = u ++ v ∧ x ++ cmpToks k <:+ u ∧
      Derives lang .add x a ∧ Derives lang .add v last ∧ Bounded lang last.size v ∧
      ∀ d, ChainsNest lang d w → e.size ≤ 2 ^ d * u.length + last.size
  | _, w, e => Bounded lang e.size w

section Chains

variable {lang : Lang} {w v : List Tok} {a b c e : Expr} {k : CmpKind}

/-! ### Chains -/

/-- The size of a chain is bounded, whatever its last operand adds when the chain goes on. -/
theorem bounded_chain (h : Fits lang (.chain b) w e) : Bounded lang e.size w := by
  obtain ⟨u, v, x, a, k, rfl, -, -, -, hlast, hsize⟩ := h
  intro d hd
  have := hlast d hd.right
  have := hsize d hd
  rw [List.length_append, Nat.mul_add]
  omega

/-- One comparison: its operands are written once each, and its node is paid by its token. -/
theorem fits_chain_one (ha : Derives lang .add w a) (hb : Derives lang .add v b)
    (iha : Bounded lang a.size w) (ihb : Bounded lang b.size v) :
    Fits lang (.chain b) (w ++ (cmpToks k ++ v)) (comparison k a b) := by
  refine ⟨w ++ cmpToks k, v, w, a, k, by rw [List.append_assoc], List.suffix_rfl, ha, hb, ihb,
    fun d hd => ?_⟩
  have hsize := iha d hd.left
  have hops := Nat.le_mul_of_pos_left (cmpToks k).length (Nat.two_pow_pos d)
  rw [size_comparison, List.length_append, Nat.mul_add]
  omega

/-- The last operand gets into the middle, where it counts twice and nests one level less. -/
theorem fits_chain_more (hc : Derives lang .add v c) (ihe : Fits lang (.chain b) w e)
    (ihc : Bounded lang c.size v) :
    Fits lang (.chain c) (w ++ (cmpToks k ++ v)) (.bool .and e (comparison k b c)) := by
  obtain ⟨u, m, x, a, k', rfl, hx, ha, hm, hlast, hsize⟩ := ihe
  refine ⟨u ++ m ++ cmpToks k, v, m, b, k, by simp, ⟨u, by simp⟩, hm, hc, ihc, fun d hd => ?_⟩
  have hmiddle : Middle lang (u ++ m ++ (cmpToks k ++ v)) m := by
    obtain ⟨s, rfl⟩ := hx
    exact ⟨x, a, k', b, k, v, c, ha, hm, hc, s, [], by simp⟩
  cases d with
  | zero => exact absurd hmiddle (hd m)
  | succ d =>
    have htwice := hlast d (hd m hmiddle)
    have hbefore := hsize (d + 1) hd.left
    have hops : (cmpToks k).length + 1 ≤ 2 ^ (d + 1) * (cmpToks k).length := by
      have := Nat.mul_le_mul_right (cmpToks k).length (Nat.two_pow_pos d)
      have := length_cmpToks k
      rw [pow_succ]
      linarith
    rw [Expr.size, size_comparison, List.length_append, List.length_append, Nat.mul_add,
      Nat.mul_add]
    have hdouble : 2 ^ (d + 1) * m.length = 2 * (2 ^ d * m.length) := by rw [pow_succ', mul_assoc]
    linarith

end Chains

/-- **The nodes of a derivation**, by its rules. -/
theorem fits_of_derives {lang : Lang} {s : Sym} {w : List Tok} {e : Expr}
    (h : Derives lang s w e) : Fits lang s w e := by
  induction h with
  | cond _ ih | or_one _ ih | and_one _ ih | not_one _ ih | cmp_one _ ih | add_one _ ih
  | mul_one _ ih | unary_one _ ih | postfix_one _ ih => exact ih
  | ternary _ _ _ _ ihe iht ihf =>
    exact (ihe.append (iht.append ihf.cons).cons).mono (by simp only [Expr.size]; omega)
  | or_more _ _ _ iha ihb | and_more _ _ _ iha ihb | add_more _ _ _ iha ihb
  | mul_more _ _ _ iha ihb => exact iha.append ihb.cons
  | not_more _ _ ih | neg _ ih => exact ih.cons
  | cmp_chain _ ih => exact bounded_chain ih
  | chain_one ha hb iha ihb => exact fits_chain_one ha hb iha ihb
  | chain_more _ hc ihe ihc => exact fits_chain_more hc ihe ihc
  | index _ _ ihe ihi => exact ihe.append ihi.closed.cons
  | contains _ _ ihe iha =>
    exact (ihe.append iha.closed.cons.cons.cons).mono
      (by simp only [Expr.size, Expr.sizeAll]; omega)
  | literal _ | name => exact Bounded.nil.cons
  | paren _ ih => exact ih.closed.cons.mono (Nat.le_succ _)
  | list_nil => exact Bounded.nil.cons.closed
  | list _ ih => exact ih.closed.cons
  | list_comma _ ih => exact (ih.append Bounded.nil.closed.closed).cons
  | call_nil _ => exact Bounded.nil.cons.closed.closed
  | call _ _ ih => exact ih.closed.cons.cons.mono (Nat.le_succ _)
  | ite _ _ ih => exact ih.cons.mono (Nat.le_succ _)
  | items_one _ ih => exact ih
  | items_more _ _ ih ihs =>
    exact (ih.append ihs.cons).mono (by simp only [Expr.size, Expr.sizeAll]; omega)
  | branches_else _ _ _ ihc iht ihf =>
    exact (ihc.append (iht.append (ihf.closed (t := .rBrace)).cons.cons.cons).cons).mono
      (by simp only [Expr.size]; omega)
  | branches_if _ _ _ ihc iht ihf =>
    exact (ihc.append (iht.append ihf.cons.cons.cons).cons).mono (by simp only [Expr.size]; omega)

/-- An expression is bounded, by induction over its derivation. -/
theorem bounded_of_derives {lang : Lang} {w : List Tok} {e : Expr} (h : Derives lang .cond w e) :
    Bounded lang e.size w := fits_of_derives h

/-! ### Programs -/

/-- The nodes of bindings, before their names get slots. -/
def bindingsSize (bs : List (String × Expr)) : ℕ := Expr.sizeAll (bs.map Prod.snd)

/-- A program is bounded: the tokens of `let` pay for nothing. -/
theorem bounded_of_derivation {lang : Lang} {ts : List Tok} {bs : List (String × Expr)} {r : Expr}
    (h : Derivation lang ts bs r) : Bounded lang (bindingsSize bs + r.size) ts := by
  induction h with
  | ret h => exact (bounded_of_derives h).mono (by simp [bindingsSize, Expr.sizeAll])
  | semi h => exact (bounded_of_derives h).closed.mono (by simp [bindingsSize, Expr.sizeAll])
  | letIn _ h _ ih =>
    refine ((bounded_of_derives h).append ih.cons).cons.cons.cons.mono ?_
    simp only [bindingsSize, List.map_cons, Expr.sizeAll]
    omega

/-- Sizes of lists add up. -/
theorem sizeAll_append (es es' : List Expr) :
    Expr.sizeAll (es ++ es') = Expr.sizeAll es + Expr.sizeAll es' := by
  induction es with
  | nil => simp [Expr.sizeAll]
  | cons e es ih => rw [List.cons_append, Expr.sizeAll, Expr.sizeAll, ih, Nat.add_assoc]

/-- The compiled bindings are as large as the written ones, because slots count as much as
names. -/
theorem size_bindTrees (bs : List (String × Expr)) (b : Bindings) :
    Expr.sizeAll ((bindTrees b bs).body.map LetBinding.expr) =
      Expr.sizeAll (b.body.map LetBinding.expr) + bindingsSize bs := by
  induction bs generalizing b with
  | nil => rfl
  | cons xe bs ih =>
    obtain ⟨x, e⟩ := xe
    rw [bindTrees, ih, bindTree, List.map_append, sizeAll_append, Nat.add_assoc]
    simp only [bindingsSize, List.map_cons, List.map_nil, Expr.sizeAll, size_resolveIn,
      Nat.add_zero]

/-- What the parser accepts comes from a derivation, with as many nodes. -/
theorem derivation_of_parse {src : String} {lang : Lang} {toks : List Tok} {p : Program}
    (hlex : Lex.lex src = .ok toks) (hparse : parse src lang = .ok p) :
    ∃ bs r, Derivation lang toks bs r ∧ p.size = bindingsSize bs + r.size := by
  obtain ⟨toks', bs, r, hlex', h, -, rfl⟩ := compiled_of_parse hparse
  obtain rfl := Outcome.ok.inj (hlex.symm.trans hlex')
  refine ⟨bs, r, h, ?_⟩
  have hbody : Expr.sizeAll ((compiled bs r).1.body.map LetBinding.expr) = bindingsSize bs :=
    (size_bindTrees bs _).trans (Nat.zero_add _)
  rw [Program.size, hbody, compiled, size_resolveIn]

/-! ## Chains in middle operands -/

/-- `[] < [ … ] < []`, nested `n` times. -/
def nestedText : ℕ → List Char
  | 0 => ['[', ']']
  | n + 1 => ['[', ']', '<', '['] ++ (nestedText n ++ [']', '<', '[', ']'])

def nestedToks : ℕ → List Tok
  | 0 => [.lBracket, .rBracket]
  | n + 1 => [.lBracket, .rBracket, .lt, .lBracket] ++
      (nestedToks n ++ [.rBracket, .lt, .lBracket, .rBracket])

def nestedTree : ℕ → Expr
  | 0 => .list []
  | n + 1 => .bool .and (.cmp .lt (.list []) (.list [nestedTree n]))
      (.cmp .lt (.list [nestedTree n]) (.list []))

/-- The nested chain grows by eight tokens for each level. -/
theorem length_nestedToks (n : ℕ) : (nestedToks n).length = 8 * n + 2 := by
  induction n with
  | zero => rfl
  | succ n ih =>
    simp only [nestedToks, List.length_append, ih, List.length_cons, List.length_nil]
    omega

/-- Its tree doubles at each level, because the middle operand is there twice: the bound is
reached up to a factor. -/
theorem size_nestedTree (n : ℕ) : (nestedTree n).size + 7 = 8 * 2 ^ n := by
  induction n with
  | zero => rfl
  | succ n ih =>
    simp only [nestedTree, Expr.size, Expr.sizeAll]
    rw [pow_succ]
    omega

/-- A primary stands for a whole expression. -/
theorem Derives.add_of_primary {lang : Lang} {w : List Tok} {e : Expr}
    (h : Derives lang .primary w e) : Derives lang .add w e :=
  .add_one (.mul_one (.unary_one (.postfix_one h)))

/-- A comparison is a condition, through the levels that add nothing. -/
theorem Derives.cond_of_cmp {lang : Lang} {w : List Tok} {e : Expr} (h : Derives lang .cmp w e) :
    Derives lang .cond w e :=
  .cond (.or_one (.and_one (.not_one h)))

/-- The grammar has the nested chains in both languages. -/
theorem derives_nested (lang : Lang) (n : ℕ) :
    Derives lang .cond (nestedToks n) (nestedTree n) := by
  induction n with
  | zero => exact .cond_of_cmp (.cmp_one (.add_of_primary .list_nil))
  | succ n ih =>
    have hchain := Derives.chain_more (k := .cmp .lt)
      (Derives.chain_one (k := .cmp .lt) (.add_of_primary .list_nil)
        (.add_of_primary (.list (.items_one ih))))
      (.add_of_primary .list_nil)
    have hcond := Derives.cond_of_cmp (.cmp_chain hchain)
    simpa [nestedToks, nestedTree, comparison, cmpToks] using hcond

/-! ### Its tokens -/

/-- The brackets and the comparison of such a text. -/
def nestedChars : List (Char × Tok) := [('[', .lBracket), (']', .rBracket), ('<', .lt)]

/-- Characters that are tokens by themselves, with the tokens. -/
def Spells (cs : List Char) (toks : List Tok) : Prop :=
  List.Forall₂ (fun c t => (c, t) ∈ nestedChars) cs toks

/-- And they are spelled as texts. -/
theorem spells_nested (n : ℕ) : Spells (nestedText n) (nestedToks n) := by
  induction n with
  | zero => simp [Spells, nestedText, nestedToks, nestedChars]
  | succ n ih =>
    have hopen : Spells ['[', ']', '<', '['] [.lBracket, .rBracket, .lt, .lBracket] := by
      simp [Spells, nestedChars]
    have hclose : Spells [']', '<', '[', ']'] [.rBracket, .lt, .lBracket, .rBracket] := by
      simp [Spells, nestedChars]
    exact List.rel_append hopen (List.rel_append ih hclose)

/-- A spelling is plain ASCII, so bytes are characters in it. -/
theorem ascii_of_spells {cs : List Char} {toks : List Tok} (h : Spells cs toks) :
    ∀ c ∈ cs, c.toNat < 0x80 := by
  induction h with
  | nil => simp
  | cons hct _ ih =>
    refine List.forall_mem_cons.mpr ⟨?_, ih⟩
    simp only [nestedChars, List.mem_cons, Prod.mk.injEq, List.not_mem_nil, or_false] at hct
    rcases hct with ⟨rfl, -⟩ | ⟨rfl, -⟩ | ⟨rfl, -⟩ <;> decide

/-- No two of the characters make an operator. -/
theorem twoCharTok_nested {c c' : Char} {t t' : Tok} (h : (c, t) ∈ nestedChars)
    (h' : (c', t') ∈ nestedChars) :
    twoCharTok [UInt8.ofNat c.toNat, UInt8.ofNat c'.toNat] = none := by
  simp only [nestedChars, List.mem_cons, Prod.mk.injEq, List.not_mem_nil, or_false] at h h'
  rcases h with ⟨rfl, -⟩ | ⟨rfl, -⟩ | ⟨rfl, -⟩ <;> rcases h' with ⟨rfl, -⟩ | ⟨rfl, -⟩ | ⟨rfl, -⟩ <;>
    decide

/-- Every position in front of ASCII characters is a boundary. -/
theorem isCharBoundary_ascii {cs : List Char} (h : ∀ c ∈ cs, c.toNat < 0x80) (pre : List UInt8) :
    isCharBoundary (pre ++ bytes cs) pre.length = true := by
  cases cs with
  | nil => exact isCharBoundary_iff.mpr (Or.inl (by simp [bytes]))
  | cons c cs =>
    have hc : c.toNat < 0x80 := h c List.mem_cons_self
    rw [bytes_cons hc]
    refine isCharBoundary_of_ascii (c := UInt8.ofNat c.toNat) (by simp) ?_
    rw [UInt8.toNat_ofNat', Nat.mod_eq_of_lt (by omega)]
    exact hc

/-- The lexer's look at two bytes does not fail in plain ASCII. -/
theorem twoBytes_nested {c c' : Char} {cs : List Char} (h : ∀ x ∈ c :: c' :: cs, x.toNat < 0x80)
    (pre : List UInt8) :
    Lex.twoBytes (pre ++ bytes (c :: c' :: cs)) pre.length =
      .ok [UInt8.ofNat c.toNat, UInt8.ofNat c'.toNat] := by
  rw [List.forall_mem_cons, List.forall_mem_cons] at h
  obtain ⟨hc, hc', hcs⟩ := h
  have hlt : ∀ x ∈ c :: c' :: cs, x.toNat < 0x80 := by
    rw [List.forall_mem_cons, List.forall_mem_cons]
    exact ⟨hc, hc', hcs⟩
  have hstart := isCharBoundary_ascii hlt pre
  have hend := isCharBoundary_ascii hcs (pre ++ [UInt8.ofNat c.toNat, UInt8.ofNat c'.toNat])
  rw [bytes_cons hc, bytes_cons hc'] at hstart ⊢
  rw [List.append_assoc, List.length_append] at hend
  rw [Lex.twoBytes, if_pos (by simp), strSlice_eq_ok (Nat.le_add_right _ 2) hstart hend]
  simp

/-- A round of the lexer on one of the characters. -/
theorem lexStep_nested {c : Char} {t : Tok} (h : (c, t) ∈ nestedChars) {cs : List Char}
    {toks : List Tok} (hcs : Spells cs toks) (pre : List UInt8) :
    Lex.lexStep (pre ++ bytes (c :: cs)) pre.length (UInt8.ofNat c.toNat) =
      .ok (some t, pre.length + 1) := by
  have htwo : ∃ two, Lex.twoBytes (pre ++ bytes (c :: cs)) pre.length = .ok two ∧
      twoCharTok two = none := by
    cases hcs with
    | nil =>
      refine ⟨[], ?_, twoCharTok_nil⟩
      rw [bytes_cons (ascii_of_spells (.cons h .nil) c List.mem_cons_self), Lex.twoBytes,
        if_neg (by simp [bytes])]
    | cons h' hcs =>
      exact ⟨_, twoBytes_nested (ascii_of_spells (.cons h (.cons h' hcs))) pre,
        twoCharTok_nested h h'⟩
  obtain ⟨two, htwo, hnone⟩ := htwo
  have hone : Lex.isOperatorByte (UInt8.ofNat c.toNat) = true ∧
      oneCharTok (UInt8.ofNat c.toNat) = some t := by
    simp only [nestedChars, List.mem_cons, Prod.mk.injEq, List.not_mem_nil, or_false] at h
    rcases h with ⟨rfl, rfl⟩ | ⟨rfl, rfl⟩ | ⟨rfl, rfl⟩ <;> decide
  obtain ⟨hop, hone⟩ := hone
  simp only [Lex.isOperatorByte, Bool.not_eq_true', Bool.or_eq_false_iff] at hop
  obtain ⟨⟨⟨hs, hd⟩, ha⟩, hq⟩ := hop
  simp only [Lex.lexStep, hs, hd, ha, hq, Lex.lexOperator, htwo, Outcome.ok_bind, hnone, hone,
    Bool.false_eq_true, if_false]

/-- **A spelling is lexed to its tokens**, from any position behind a prefix; induction over the
spelling. -/
theorem lexLoop_nested {cs : List Char} {toks : List Tok} (h : Spells cs toks) :
    ∀ pre : List UInt8, Lex.lexLoop (pre ++ bytes cs) pre.length = .ok toks := by
  induction h with
  | nil =>
    intro pre
    rw [Lex.lexLoop, dif_neg (by simp [bytes])]
  | @cons c t cs toks hct hcs ih =>
    intro pre
    have hstep := lexStep_nested hct hcs pre
    have hrest := ih (pre ++ [UInt8.ofNat c.toNat])
    rw [List.append_assoc, List.length_append] at hrest
    rw [bytes_cons (ascii_of_spells (.cons hct hcs) c List.mem_cons_self)] at hstep ⊢
    rw [Lex.lexLoop_of_step (by simp) hstep]
    exact congrArg (· >>= fun ts => Outcome.ok ([t] ++ ts)) hrest

/-- **The program of `[] < [ … ] < []` doubles with every level.** -/
theorem parse_nested (lang : Lang) (n : ℕ) :
    Lex.lex (String.ofList (nestedText n)) = .ok (nestedToks n) ∧
      ∃ p, parse (String.ofList (nestedText n)) lang = .ok p ∧ p.size + 7 = 8 * 2 ^ n := by
  have hlex : Lex.lex (String.ofList (nestedText n)) = .ok (nestedToks n) := by
    rw [Lex.lex, utf8_ofList]
    exact lexLoop_nested (spells_nested n) []
  refine ⟨hlex, ⟨[], nestedTree n, 0, defaultMaxSteps⟩, ?_, ?_⟩
  · have hprogram := program_of_derivation (.ret (derives_nested lang n))
    rw [parse, hlex, Outcome.ok_bind, hprogram]
    simp [compiled, bindTrees, resolveIn_nil]
  · rw [Program.size, List.map_nil, Expr.sizeAll, Nat.zero_add]
    exact size_nestedTree n

/-- **No constant bounds the nodes of a program by the tokens of its text.** -/
theorem parse_not_linear : ¬ ∃ c : ℕ, ∀ (src : String) (lang : Lang) (toks : List Tok)
    (p : Program), Lex.lex src = .ok toks → parse src lang = .ok p →
      p.size ≤ c * toks.length := by
  rintro ⟨c, hc⟩
  obtain ⟨hlex, p, hparse, hsize⟩ := parse_nested .python (4 * c)
  have hle := hc _ _ _ p hlex hparse
  rw [length_nestedToks] at hle
  -- `2 ^ (4 * c)` is the square of a number above `2 * c`
  have hlt : 2 * c < 2 ^ (2 * c) := Nat.lt_two_pow_self
  have hsquare : 2 ^ (4 * c) = 2 ^ (2 * c) * 2 ^ (2 * c) := by rw [← pow_add]; congr 1; omega
  nlinarith

/-! ## The bound on a program -/

/-- **A program is linear in its text where the chains do not nest**: where they nest at most
`d` deep in one another's middle operands, it has at most `2 ^ d` nodes for a token. -/
theorem size_le_of_parse {src : String} {lang : Lang} {toks : List Tok} {p : Program}
    (hlex : Lex.lex src = .ok toks) (hparse : parse src lang = .ok p) {d : ℕ}
    (hnest : ChainsNest lang d toks) : p.size ≤ 2 ^ d * toks.length := by
  obtain ⟨bs, r, h, hsize⟩ := derivation_of_parse hlex hparse
  rw [hsize]
  exact bounded_of_derivation h d hnest

/-- `[]<[[]]<[]`: its chain does not nest. -/
theorem size_le_of_parse_nested : ∃ p, parse (String.ofList (nestedText 1)) .python = .ok p ∧
    p.size ≤ 2 ^ 1 * (nestedToks 1).length := by
  obtain ⟨hlex, p, hparse, -⟩ := parse_nested .python 1
  exact ⟨p, hparse, size_le_of_parse hlex hparse (chainsNest_of_countP (by decide))⟩

end Grammar
