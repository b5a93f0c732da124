/-
# The parser accepts its grammar

Every list of tokens that the grammar derives is read by the parser, as the tree of the
grammar (`completes`).  The parser is greedy, so what follows must not continue the
phrase: each token continues the phrases from some level on (`tokLevel`), and a phrase is
read in front of a token of a higher level (`Stops`).

The induction is on the derivation.  For a level with a loop it says where the loop has
arrived (`Continues`), because the rules are left-recursive.  The nesting bound of the
parser counts down at each bracket, where the phrase gets shorter.
-/
import PySpell.Grammar

open TokenParser Parse

namespace Grammar

/-! ## What follows and what comes first -/

/-- The lowest level whose phrases the token continues. -/
def tokLevel : Tok → ℕ
  | .lParen => 0
  | .lBracket | .dot => 1
  | .star | .slash | .percent => 2
  | .plus | .minus => 3
  | .eqEq | .ne | .lt | .le | .gt | .ge | .inKw | .notKw => 4
  | .andKw | .andAnd => 5
  | .orKw | .orOr => 6
  | .ifKw => 7
  | _ => 8

/-- No phrase of the level goes on with the next token. -/
def Stops (k : ℕ) (r : List Tok) : Prop := ∀ t, r.head? = some t → k < tokLevel t

/-- What ends a phrase of one level ends the phrases of the levels below, which go on with fewer
tokens. -/
theorem Stops.mono {k l : ℕ} {r : List Tok} (h : Stops l r) (hk : k ≤ l) : Stops k r :=
  fun t ht => lt_of_le_of_lt hk (h t ht)

/-- The end of the input ends every phrase. -/
theorem stops_nil (k : ℕ) : Stops k [] := fun _ h => by cases h

/-- Only the first token counts for whether a phrase goes on. -/
theorem stops_cons {k : ℕ} {t : Tok} (h : k < tokLevel t) (r : List Tok) : Stops k (t :: r) := by
  intro t' ht'
  obtain rfl := Option.some_inj.mp ht'
  exact h

/-- An operator of the level does not follow. -/
theorem Stops.bind_eq_none {β : Type} {k : ℕ} {r : List Tok} {op : Tok → Option β}
    (h : Stops k r) (hop : ∀ t, k < tokLevel t → op t = none) : r.head?.bind op = none := by
  cases hr : r.head? with
  | none => rfl
  | some t => exact hop t (h t hr)

/-- The operators that may stand before the phrases that begin with the token. -/
def headLevel : Tok → ℕ
  | .int _ | .float _ | .bool _ | .str _ | .ident _ | .lParen | .lBracket | .ifKw => 0
  | .minus => 1
  | .notKw | .bang => 2
  | _ => 3

def symHead : Sym → ℕ
  | .primary | .postfixed => 0
  | .unary | .mul | .add | .cmp | .chain _ => 1
  | .cond | .or | .and | .not | .items | .branches => 2

/-- **What a phrase begins with.** -/
theorem Derives.head {lang : Lang} {s : Sym} {w : List Tok} {e : Expr} (h : Derives lang s w e) :
    ∃ t v, w = t :: v ∧ headLevel t ≤ symHead s := by
  -- the first part of a phrase begins it
  have hfirst : ∀ {s : Sym} (s' : Sym) {w v : List Tok}, symHead s' ≤ symHead s →
      (∃ t u, w = t :: u ∧ headLevel t ≤ symHead s') →
      ∃ t u, w ++ v = t :: u ∧ headLevel t ≤ symHead s := by
    rintro s s' w v hs ⟨t, u, rfl, ht⟩
    exact ⟨t, u ++ v, rfl, ht.trans hs⟩
  have hsame : ∀ {s : Sym} (s' : Sym) {w : List Tok}, symHead s' ≤ symHead s →
      (∃ t u, w = t :: u ∧ headLevel t ≤ symHead s') →
      ∃ t u, w = t :: u ∧ headLevel t ≤ symHead s := by
    rintro s s' w hs ⟨t, u, rfl, ht⟩
    exact ⟨t, u, rfl, ht.trans hs⟩
  induction h with
  | cond _ ih => exact hsame .or le_rfl ih
  | ternary _ _ _ _ ih => exact hfirst .or le_rfl ih
  | or_one _ ih => exact hsame .and le_rfl ih
  | or_more _ _ _ ih => exact hfirst .or le_rfl ih
  | and_one _ ih => exact hsame .not le_rfl ih
  | and_more _ _ _ ih => exact hfirst .and le_rfl ih
  | not_one _ ih => exact hsame .cmp (by decide) ih
  | not_more ht _ _ => rcases ht with rfl | rfl <;> exact ⟨_, _, rfl, le_rfl⟩
  | cmp_one _ ih => exact hsame .add le_rfl ih
  | cmp_chain _ ih => exact ih
  | chain_one _ _ ih => exact hfirst .add le_rfl ih
  | chain_more _ _ ih => exact hfirst .add le_rfl ih
  | add_one _ ih => exact hsame .mul le_rfl ih
  | add_more _ _ _ ih => exact hfirst .add le_rfl ih
  | mul_one _ ih => exact hsame .unary le_rfl ih
  | mul_more _ _ _ ih => exact hfirst .mul le_rfl ih
  | unary_one _ ih => exact hsame .postfixed (by decide) ih
  | neg _ _ => exact ⟨_, _, rfl, le_rfl⟩
  | postfix_one _ ih => exact hsame .primary le_rfl ih
  | index _ _ ih => exact hfirst .postfixed le_rfl ih
  | contains _ _ ih => exact hfirst .postfixed le_rfl ih
  | @literal t v ht =>
    refine ⟨t, [], rfl, ?_⟩
    cases t <;> first | exact le_rfl | cases ht
  | paren _ _ => exact ⟨_, _, rfl, le_rfl⟩
  | list_nil => exact ⟨_, _, rfl, le_rfl⟩
  | list _ _ => exact ⟨_, _, rfl, le_rfl⟩
  | list_comma _ _ => exact ⟨_, _, rfl, le_rfl⟩
  | name => exact ⟨_, _, rfl, le_rfl⟩
  | call_nil _ => exact ⟨_, _, rfl, le_rfl⟩
  | call _ _ _ => exact ⟨_, _, rfl, le_rfl⟩
  | ite _ _ _ => exact ⟨_, _, rfl, le_rfl⟩
  | items_one _ ih => exact hsame .cond le_rfl ih
  | items_more _ _ ih => exact hfirst .cond le_rfl ih
  | branches_else _ _ _ ih => exact hfirst .or le_rfl ih
  | branches_if _ _ _ ih => exact hfirst .or le_rfl ih

/-! ## What it is to read a phrase -/

section

variable (lang : Lang) (locals : List (String × UInt16)) (n : ℕ)

/-- The levels of the parser below a nesting bound. -/
abbrev primaryAt : P Expr := primary lang locals (conditional lang locals n) (orExpr lang locals n)
abbrev postfixOpAt : Tok → Option (P (Expr → Expr)) := postfixOp (conditional lang locals n)
abbrev postfixAt : P Expr :=
  postfixExpr lang locals (conditional lang locals n) (orExpr lang locals n)
abbrev unaryAt : P Expr := unary lang locals (conditional lang locals n) (orExpr lang locals n)
abbrev mulAt : P Expr := mulExpr lang locals (conditional lang locals n) (orExpr lang locals n)
abbrev addAt : P Expr := addExpr lang locals (conditional lang locals n) (orExpr lang locals n)
abbrev cmpAt : P Expr := cmpExpr lang locals (conditional lang locals n) (orExpr lang locals n)
abbrev notAt : P Expr := notExpr lang locals (conditional lang locals n) (orExpr lang locals n)
abbrev andAt : P Expr := andExpr lang locals (conditional lang locals n) (orExpr lang locals n)
abbrev orAt : P Expr := orLevel lang locals (conditional lang locals n) (orExpr lang locals n)
abbrev condAt : P Expr := condLevel lang (conditional lang locals n) (orExpr lang locals n)

/-- The suffixes of a loop over operators that associate to the left. -/
abbrev operators (op : Tok → Option (Expr → Expr → Expr)) (operand : P Expr) (t : Tok) :
    Option (P (Expr → Expr)) :=
  (op t).map fun f => do
    let right ← operand
    pure fun left => f left right

end

/-- The loop over a chain has arrived behind `w`. -/
def ChainAt (lang : Lang) (locals : List (String × UInt16)) (n : ℕ) (b : Expr) (w : List Tok)
    (e : Expr) : Prop :=
  ∀ r, Stops 3 r → ∀ fuel, (w ++ r).length < fuel →
    ∃ fuel' operands ops, r.length < fuel' ∧ ops ≠ [] ∧ operands.length = ops.length + 1 ∧
      operands.getLast? = some (resolveIn locals b) ∧
      cmpChain operands ops = .ok (resolveIn locals e) ∧
      (addAt lang locals n >>= fun first =>
        cmpLoop (addAt lang locals n) fuel [first] []) (w ++ r) =
        cmpLoop (addAt lang locals n) fuel' operands ops r

/-- The loop over items reads `w`, with a comma behind it or without. -/
def ItemsAt (lang : Lang) (locals : List (String × UInt16)) (n : ℕ) (w : List Tok)
    (es : List Expr) : Prop :=
  ∀ (last : Option Tok → Bool), (∀ t, headLevel t ≤ 2 → last (some t) = false) →
    ∀ r fuel items, (w ++ r).length < fuel →
    (Stops 7 r → r.head? ≠ some .comma →
      commaLoop .comma last (conditional lang locals n) fuel items (w ++ r) =
        .ok (items ++ resolveAll locals es, r)) ∧
    (last r.head? = true →
      commaLoop .comma last (conditional lang locals n) (fuel + 1) items (w ++ .comma :: r) =
        .ok (items ++ resolveAll locals es, r))

/-- The parser reads a phrase of the nonterminal, when the nesting bound is as large as
the phrase. -/
def Completes (lang : Lang) (locals : List (String × UInt16)) : Sym → List Tok → Expr → Prop
  | .cond, w, e => ∀ n, w.length + 1 ≤ n →
    Reads (Stops 7) (condAt lang locals n) w (resolveIn locals e)
  | .or, w, e => ∀ n, w.length ≤ n →
    Continues (Stops 5) (operators orOp (andAt lang locals n)) (andAt lang locals n) w
      (resolveIn locals e)
  | .and, w, e => ∀ n, w.length ≤ n →
    Continues (Stops 4) (operators andOp (notAt lang locals n)) (notAt lang locals n) w
      (resolveIn locals e)
  | .not, w, e => ∀ n, w.length ≤ n →
    Reads (Stops 4) (notAt lang locals n) w (resolveIn locals e)
  | .cmp, w, e => ∀ n, w.length ≤ n →
    Reads (Stops 4) (cmpAt lang locals n) w (resolveIn locals e)
  | .chain b, w, e => ∀ n, w.length ≤ n → ChainAt lang locals n b w e
  | .add, w, e => ∀ n, w.length ≤ n →
    Continues (Stops 2) (operators addOp (mulAt lang locals n)) (mulAt lang locals n) w
      (resolveIn locals e)
  | .mul, w, e => ∀ n, w.length ≤ n →
    Continues (Stops 1) (operators mulOp (unaryAt lang locals n)) (unaryAt lang locals n) w
      (resolveIn locals e)
  | .unary, w, e => ∀ n, w.length ≤ n →
    Reads (Stops 1) (unaryAt lang locals n) w (resolveIn locals e)
  | .postfixed, w, e => ∀ n, w.length ≤ n →
    Continues (Stops 0) (postfixOpAt lang locals n) (primaryAt lang locals n) w
      (resolveIn locals e)
  | .primary, w, e => ∀ n, w.length ≤ n →
    Reads (Stops 0) (primaryAt lang locals n) w (resolveIn locals e)
  | .items, w, .list es => ∀ n, w.length + 2 ≤ n → ItemsAt lang locals n w es
  | .items, _, _ => False
  | .branches, w, e => ∀ n, w.length ≤ n → ∀ r fuel, (w ++ r).length < fuel →
    rustIf (conditional lang locals n) (orExpr lang locals n) fuel (w ++ r) =
      .ok (resolveIn locals e, r)

variable {lang : Lang} {locals : List (String × UInt16)}

/-! ## Levels with a loop -/

/-- The `or` level, read to its end: what follows it here continues no level up to it. -/
theorem reads_or {w : List Tok} {e : Expr} (h : Completes lang locals .or w e) {n : ℕ}
    (hn : w.length ≤ n) : Reads (Stops 6) (orAt lang locals n) w (resolveIn locals e) :=
  (h n hn).suffixed fun r hr => ⟨hr.mono (by omega), hr.bind_eq_none fun t ht => by
    cases t <;> first | rfl | exact absurd ht (by decide)⟩

/-- So does the `and` level. -/
theorem reads_and {w : List Tok} {e : Expr} (h : Completes lang locals .and w e) {n : ℕ}
    (hn : w.length ≤ n) : Reads (Stops 5) (andAt lang locals n) w (resolveIn locals e) :=
  (h n hn).suffixed fun r hr => ⟨hr.mono (by omega), hr.bind_eq_none fun t ht => by
    cases t <;> first | rfl | exact absurd ht (by decide)⟩

/-- So does the level of sums. -/
theorem reads_add {w : List Tok} {e : Expr} (h : Completes lang locals .add w e) {n : ℕ}
    (hn : w.length ≤ n) : Reads (Stops 3) (addAt lang locals n) w (resolveIn locals e) :=
  (h n hn).suffixed fun r hr => ⟨hr.mono (by omega), hr.bind_eq_none fun t ht => by
    cases t <;> first | rfl | exact absurd ht (by decide)⟩

/-- So does the level of products. -/
theorem reads_mul {w : List Tok} {e : Expr} (h : Completes lang locals .mul w e) {n : ℕ}
    (hn : w.length ≤ n) : Reads (Stops 2) (mulAt lang locals n) w (resolveIn locals e) :=
  (h n hn).suffixed fun r hr => ⟨hr.mono (by omega), hr.bind_eq_none fun t ht => by
    cases t <;> first | rfl | exact absurd ht (by decide)⟩

/-- So do a primary and what is behind it. -/
theorem reads_postfixExpr {w : List Tok} {e : Expr} (h : Completes lang locals .postfixed w e)
    {n : ℕ} (hn : w.length ≤ n) : Reads (Stops 1) (postfixAt lang locals n) w (resolveIn locals e) :=
  (h n hn).suffixed fun r hr => ⟨hr.mono (by omega), hr.bind_eq_none fun t ht => by
    cases t <;> first | rfl | exact absurd ht (by decide)⟩

/-! ## Below a bracket -/

/-- The nested parser reads a conditional. -/
theorem reads_conditional {w : List Tok} {e : Expr} (h : Completes lang locals .cond w e) {n : ℕ}
    (hn : w.length + 2 ≤ n) :
    Reads (Stops 7) (conditional lang locals n) w (resolveIn locals e) := by
  obtain ⟨n, rfl⟩ : ∃ m, n = m + 1 := ⟨n - 1, by omega⟩
  exact h n (by omega)

/-- The function that the conditionals call reads the `or` level, at one nesting level more. -/
theorem reads_orExpr {w : List Tok} {e : Expr} (h : Completes lang locals .or w e) {n : ℕ}
    (hn : w.length + 1 ≤ n) : Reads (Stops 6) (orExpr lang locals n) w (resolveIn locals e) := by
  obtain ⟨n, rfl⟩ : ∃ m, n = m + 1 := ⟨n - 1, by omega⟩
  exact reads_or h (by omega)

/-- A phrase, a token behind it, and the rest. -/
theorem reads_closed {α β : Type} {stop stop' : List Tok → Prop} {p : P α} {k : α → P β}
    {w v : List Tok} {a : α} {b : β} {t : Tok} {what : String} (hp : Reads stop p w a)
    (ht : ∀ r, stop (t :: r)) (hk : Reads stop' (k a) v b) :
    Reads stop' (do
      let a ← p
      expectTok t what
      k a) (w ++ t :: v) b :=
  hp.bind (fun _ _ => ht _) (Reads.expect_bind hk)

/-- Nothing more to read. -/
theorem reads_pure {α : Type} {stop : List Tok → Prop} (a : α) :
    Reads stop (pure a : P α) [] a := Reads.pure a

/-! ## Conditionals -/

/-- A condition without a conditional is read: no `if` follows it. -/
theorem completes_cond {w : List Tok} {e : Expr} (h : Completes lang locals .or w e) :
    Completes lang locals .cond w e := by
  intro n hn r hr
  have hif : ¬ (lang = .python ∧ r.head? = some .ifKw) := by
    rintro ⟨-, hhead⟩
    exact absurd (hr _ hhead) (by decide)
  rw [condAt, condLevel, bind_run, reads_orExpr h hn r (hr.mono (by omega)), Outcome.ok_bind]
  dsimp only
  rw [bind_run, peek, Outcome.ok_bind]
  dsimp only
  rw [if_neg hif]
  rfl

/-- **Python's conditional**: the part before `if` is read first, and then the condition and the
other part, which may be a conditional again. -/
theorem completes_ternary {w v u : List Tok} {e t f : Expr} (hlang : lang = .python)
    (he : Completes lang locals .or w e) (ht : Completes lang locals .or v t)
    (hf : Completes lang locals .cond u f) :
    Completes lang locals .cond (w ++ .ifKw :: (v ++ .elseKw :: u)) (.ite t e f) := by
  subst hlang
  intro n hn
  simp only [List.length_append, List.length_cons] at hn
  refine (reads_orExpr he (by omega)).bind (fun r _ => stops_cons (by decide) _) ?_
  refine Reads.peek_bind ?_
  rw [if_pos ⟨rfl, rfl⟩]
  refine Reads.advance_bind ?_
  refine reads_closed (reads_orExpr ht (by omega)) (stops_cons (by decide)) ?_
  exact Reads.map (reads_conditional hf (by omega))
    (Expr.ite (resolveIn locals t) (resolveIn locals e))

/-! ## Operators -/

/-- Both spellings of `or` continue a disjunction, in each of the languages. -/
theorem completes_or_more {w v : List Tok} {a b : Expr} {t : Tok} (ht : t = .orKw ∨ t = .orOr)
    (ha : Completes lang locals .or w a) (hb : Completes lang locals .and v b) :
    Completes lang locals .or (w ++ t :: v) (.bool .or a b) := by
  intro n hn
  simp only [List.length_append, List.length_cons] at hn
  rcases ht with rfl | rfl
  · exact (ha n (by omega)).leftAssoc_more rfl (stops_cons (by decide)) (reads_and hb (by omega))
  · exact (ha n (by omega)).leftAssoc_more rfl (stops_cons (by decide)) (reads_and hb (by omega))

/-- Both spellings of `and` continue a conjunction. -/
theorem completes_and_more {w v : List Tok} {a b : Expr} {t : Tok}
    (ht : t = .andKw ∨ t = .andAnd) (ha : Completes lang locals .and w a)
    (hb : Completes lang locals .not v b) :
    Completes lang locals .and (w ++ t :: v) (.bool .and a b) := by
  intro n hn
  simp only [List.length_append, List.length_cons] at hn
  rcases ht with rfl | rfl
  · exact (ha n (by omega)).leftAssoc_more rfl (stops_cons (by decide)) (hb n (by omega))
  · exact (ha n (by omega)).leftAssoc_more rfl (stops_cons (by decide)) (hb n (by omega))

/-- A comparison begins with neither spelling of `not`, so the `not` level hands it on. -/
theorem completes_not_one {w : List Tok} {e : Expr} (hw : Derives lang .cmp w e)
    (h : Completes lang locals .cmp w e) : Completes lang locals .not w e := by
  intro n hn
  obtain ⟨t, v, rfl, ht⟩ := hw.head
  refine Reads.prefixed_one ?_ (h n hn)
  cases t <;> first | rfl | exact absurd ht (by decide)

/-- A negation may be negated again, in either spelling. -/
theorem completes_not_more {w : List Tok} {e : Expr} {t : Tok} (ht : t = .notKw ∨ t = .bang)
    (h : Completes lang locals .not w e) :
    Completes lang locals .not (t :: w) (.unary .not e) := by
  intro n hn
  rw [List.length_cons] at hn
  rcases ht with rfl | rfl
  · exact Reads.prefixed_more (f := Expr.unary .not) rfl (h n (by omega))
  · exact Reads.prefixed_more (f := Expr.unary .not) rfl (h n (by omega))

/-- Sums lean to the left: the new summand becomes the right operand of what was read. -/
theorem completes_add_more {w v : List Tok} {a b : Expr} {op : BinOp}
    (hop : op = .add ∨ op = .sub) (ha : Completes lang locals .add w a)
    (hb : Completes lang locals .mul v b) :
    Completes lang locals .add (w ++ binTok op :: v) (.bin op a b) := by
  intro n hn
  simp only [List.length_append, List.length_cons] at hn
  rcases hop with rfl | rfl
  · exact (ha n (by omega)).leftAssoc_more rfl (stops_cons (by decide)) (reads_mul hb (by omega))
  · exact (ha n (by omega)).leftAssoc_more rfl (stops_cons (by decide)) (reads_mul hb (by omega))

/-- Products lean to the left as well. -/
theorem completes_mul_more {w v : List Tok} {a b : Expr} {op : BinOp}
    (hop : op = .mul ∨ op = .div ∨ op = .rem) (ha : Completes lang locals .mul w a)
    (hb : Completes lang locals .unary v b) :
    Completes lang locals .mul (w ++ binTok op :: v) (.bin op a b) := by
  intro n hn
  simp only [List.length_append, List.length_cons] at hn
  rcases hop with rfl | rfl | rfl
  · exact (ha n (by omega)).leftAssoc_more rfl (stops_cons (by decide)) (hb n (by omega))
  · exact (ha n (by omega)).leftAssoc_more rfl (stops_cons (by decide)) (hb n (by omega))
  · exact (ha n (by omega)).leftAssoc_more rfl (stops_cons (by decide)) (hb n (by omega))

/-- A postfix expression begins with no minus, so the unary level hands it on. -/
theorem completes_unary_one {w : List Tok} {e : Expr} (hw : Derives lang .postfixed w e)
    (h : Completes lang locals .postfixed w e) : Completes lang locals .unary w e := by
  intro n hn
  have hreads := reads_postfixExpr h hn
  obtain ⟨t, v, rfl, ht⟩ := hw.head
  refine Reads.prefixed_one ?_ hreads
  cases t <;> first | rfl | exact absurd ht (by decide)

/-- Signs nest to the right. -/
theorem completes_neg {w : List Tok} {e : Expr} (h : Completes lang locals .unary w e) :
    Completes lang locals .unary (.minus :: w) (.unary .neg e) := by
  intro n hn
  rw [List.length_cons] at hn
  exact Reads.prefixed_more (f := Expr.unary .neg) rfl (h n (by omega))

/-! ## Chains -/

/-- The tokens of a comparison are recognised, `not in` as one comparison of two tokens. -/
theorem cmpKind_cmpToks (k : CmpKind) (v : List Tok) :
    cmpKind (cmpToks k ++ v) = .ok (some k, v) := by
  cases k with
  | cmp op => cases op <;> rfl
  | isIn => rfl
  | notIn => rfl

/-- No comparison is read where none follows. -/
theorem cmpKind_of_stops {r : List Tok} (h : Stops 4 r) : cmpKind r = .ok (none, r) := by
  rcases r with _ | ⟨t, r⟩
  · rfl
  · have ht := h t rfl
    cases t <;> first | rfl | exact absurd ht (by decide)

/-- A comparison ends the sum before it. -/
theorem stops_cmpToks (k : CmpKind) (v : List Tok) : Stops 3 (cmpToks k ++ v) := by
  cases k with
  | cmp op => cases op <;> exact stops_cons (by decide) _
  | isIn => exact stops_cons (by decide) _
  | notIn => exact stops_cons (by decide) _

/-- A comparison takes a token at least, so the loop over a chain moves on. -/
theorem length_cmpToks (k : CmpKind) : 0 < (cmpToks k).length := by
  cases k with
  | cmp op => cases op <;> decide
  | isIn => decide
  | notIn => decide

/-- A round of the loop. -/
theorem cmpLoop_round {operand : P Expr} {k : CmpKind} {v r : List Tok} {c : Expr}
    (hc : operand (v ++ r) = .ok (c, r)) (fuel : ℕ) (operands : List Expr) (ops : List CmpKind) :
    cmpLoop operand (fuel + 1) operands ops (cmpToks k ++ (v ++ r)) =
      cmpLoop operand fuel (operands ++ [c]) (ops ++ [k]) r := by
  rw [cmpLoop, bind_run, cmpKind_cmpToks, Outcome.ok_bind]
  dsimp only
  rw [bind_run, hc, Outcome.ok_bind]

/-- A chain begins with two operands, and the loop over comparisons has read one. -/
theorem completes_chain_one {w v : List Tok} {a b : Expr} {k : CmpKind}
    (ha : Completes lang locals .add w a) (hb : Completes lang locals .add v b) :
    Completes lang locals (.chain b) (w ++ (cmpToks k ++ v)) (comparison k a b) := by
  intro n hn r hr fuel hfuel
  have hpos := length_cmpToks k
  simp only [List.length_append] at hn hfuel
  obtain ⟨fuel, rfl⟩ : ∃ m, fuel = m + 1 := ⟨fuel - 1, by omega⟩
  refine ⟨fuel, [resolveIn locals a, resolveIn locals b], [k], by omega, by simp, rfl, rfl, ?_, ?_⟩
  · rw [resolveIn_comparison, ← cmpTerm_eq]
    rfl
  · rw [List.append_assoc, List.append_assoc, bind_run,
      reads_add ha (by omega) _ (stops_cmpToks k _), Outcome.ok_bind]
    exact cmpLoop_round (reads_add hb (by omega) r hr) fuel [resolveIn locals a] []

/-- A further operand is compared with the last one; the loop keeps it for the next comparison,
and the tree repeats it. -/
theorem completes_chain_more {w v : List Tok} {e b c : Expr} {k : CmpKind}
    (he : Completes lang locals (.chain b) w e) (hc : Completes lang locals .add v c) :
    Completes lang locals (.chain c) (w ++ (cmpToks k ++ v)) (.bool .and e (comparison k b c)) := by
  intro n hn r hr fuel hfuel
  have hpos := length_cmpToks k
  simp only [List.length_append] at hn hfuel
  obtain ⟨m, operands, ops, hm, hops, hlen, hlast, heq, hloop⟩ :=
    he n (by omega) (cmpToks k ++ (v ++ r)) (stops_cmpToks k _) fuel
      (by simp only [List.length_append]; omega)
  simp only [List.length_append] at hm
  obtain ⟨m, rfl⟩ : ∃ l, m = l + 1 := ⟨m - 1, by omega⟩
  refine ⟨m, operands ++ [resolveIn locals c], ops ++ [k], by omega, by simp, by simp [hlen],
    by simp, ?_, ?_⟩
  · rw [cmpChain_append hlen hlast hops heq, resolveIn, resolveIn_comparison, cmpTerm_eq]
  · rw [List.append_assoc, List.append_assoc, hloop]
    exact cmpLoop_round (reads_add hc (by omega) r hr) m operands ops

/-- The loop stops, and the chain is put together. -/
theorem cmpAt_of_loop {w r : List Tok} {e : Expr} {n m : ℕ} {operands : List Expr}
    {ops : List CmpKind} (hr : Stops 4 r) (heq : cmpChain operands ops = .ok e)
    (hloop : (addAt lang locals n >>= fun first =>
      cmpLoop (addAt lang locals n) ((w ++ r).length + 1) [first] []) (w ++ r) =
      cmpLoop (addAt lang locals n) (m + 1) operands ops r) :
    cmpAt lang locals n (w ++ r) = .ok (e, r) := by
  have hstop : cmpLoop (addAt lang locals n) (m + 1) operands ops r = .ok ((operands, ops), r) := by
    rw [cmpLoop, bind_run, cmpKind_of_stops hr]
    rfl
  rw [hstop, bind_run] at hloop
  obtain ⟨⟨first, r₁⟩, hfirst, hrest⟩ := Outcome.bind_eq_ok.mp hloop
  change (addAt lang locals n (w ++ r) >>= fun first =>
    (cmpLoop (addAt lang locals n) ((w ++ r).length + 1) [first.1] [] first.2 >>= fun out =>
      lift (cmpChain out.1.1 out.1.2) out.2)) = _
  rw [hfirst, Outcome.ok_bind, hrest, Outcome.ok_bind]
  change lift (cmpChain operands ops) r = _
  rw [heq]
  rfl

/-- A sum alone is a phrase of the comparison level: the loop stops with one operand. -/
theorem completes_cmp_one {w : List Tok} {e : Expr} (h : Completes lang locals .add w e) :
    Completes lang locals .cmp w e := by
  intro n hn r hr
  have hchain : cmpChain [resolveIn locals e] [] = .ok (resolveIn locals e) := rfl
  refine cmpAt_of_loop (m := (w ++ r).length) hr hchain ?_
  rw [bind_run, reads_add h hn r (hr.mono (by omega)), Outcome.ok_bind]

/-- A chain is folded into a conjunction when the loop has stopped. -/
theorem completes_cmp_chain {w : List Tok} {e b : Expr}
    (h : Completes lang locals (.chain b) w e) : Completes lang locals .cmp w e := by
  intro n hn r hr
  obtain ⟨m, operands, ops, hm, -, -, -, heq, hloop⟩ :=
    h n hn r (hr.mono (by omega)) ((w ++ r).length + 1) (Nat.lt_succ_self _)
  obtain ⟨m, rfl⟩ : ∃ l, m = l + 1 := ⟨m - 1, by omega⟩
  exact cmpAt_of_loop hr heq hloop

/-! ## Suffixes and primaries -/

/-- An index may follow any postfix expression, so they may be repeated. -/
theorem completes_index {w v : List Tok} {e i : Expr} (he : Completes lang locals .postfixed w e)
    (hi : Completes lang locals .cond v i) :
    Completes lang locals .postfixed (w ++ .lBracket :: (v ++ [.rBracket])) (.index e i) := by
  intro n hn
  simp only [List.length_append, List.length_cons] at hn
  refine (he n (by omega)).more (t := .lBracket) (f := fun e => .index e (resolveIn locals i)) rfl
    (stops_cons (by decide)) ?_
  exact reads_closed (reads_conditional hi (by omega)) (stops_cons (by decide)) (reads_pure _)

/-- The method `contains` is the only one, and takes one argument. -/
theorem completes_contains {w v : List Tok} {e a : Expr}
    (he : Completes lang locals .postfixed w e) (ha : Completes lang locals .cond v a) :
    Completes lang locals .postfixed
      (w ++ .dot :: .ident "contains" :: .lParen :: (v ++ [.rParen]))
      (.call .contains [e, a]) := by
  intro n hn
  simp only [List.length_append, List.length_cons] at hn
  refine (he n (by omega)).more (t := .dot)
    (f := fun e => .call .contains [e, resolveIn locals a]) rfl (stops_cons (by decide)) ?_
  refine Reads.advance_bind ?_
  dsimp only
  rw [if_neg (not_not.mpr rfl)]
  refine Reads.expect_bind ?_
  exact reads_closed (reads_conditional ha (by omega)) (stops_cons (by decide)) (reads_pure _)

/-- A literal is a constant of the tree. -/
theorem completes_literal {t : Tok} {v : Value} (ht : literalTok t = some v) :
    Completes lang locals .primary [t] (.const v) := by
  intro n _ r _
  cases t with
  | int n =>
    obtain rfl := Option.some_inj.mp ht
    rfl
  | float x =>
    obtain rfl := Option.some_inj.mp ht
    rfl
  | bool b =>
    obtain rfl := Option.some_inj.mp ht
    rfl
  | str s =>
    obtain rfl := Option.some_inj.mp ht
    rfl
  | _ => cases ht

/-- Parentheses leave no trace in the tree. -/
theorem completes_paren {w : List Tok} {e : Expr} (h : Completes lang locals .cond w e) :
    Completes lang locals .primary (.lParen :: (w ++ [.rParen])) e := by
  intro n hn
  simp only [List.length_append, List.length_cons] at hn
  refine Reads.advance_bind ?_
  exact reads_closed (reads_conditional h (by omega)) (stops_cons (by decide)) (reads_pure _)

/-- A name alone is no call, because no parenthesis may follow a primary. -/
theorem completes_name {x : String} : Completes lang locals .primary [.ident x] (.var x) := by
  intro n _ r hr
  have hparen : r.head? ≠ some .lParen := by
    intro hhead
    exact absurd (hr _ hhead) (by decide)
  change callOrName locals (conditional lang locals n) x r = _
  rw [callOrName, bind_run, peek, Outcome.ok_bind]
  dsimp only
  rw [if_neg hparen, resolve_eq]
  rfl

/-- Rust's `if` is an expression of the primary level. -/
theorem completes_ite {w : List Tok} {e : Expr} (hlang : lang = .rust)
    (h : Completes lang locals .branches w e) :
    Completes lang locals .primary (.ifKw :: w) e := by
  subst hlang
  intro n hn r _
  rw [List.length_cons] at hn
  exact h n (by omega) r ((w ++ r).length + 1) (Nat.lt_succ_self _)

/-! ## Items -/

/-- The last item is followed by no comma, or by the one before the closing bracket. -/
theorem completes_items_one {w : List Tok} {e : Expr} (h : Completes lang locals .cond w e) :
    Completes lang locals .items w (.list [e]) := by
  intro n hn last _ r fuel items hfuel
  have hitem := reads_conditional h hn
  obtain ⟨fuel, rfl⟩ : ∃ m, fuel = m + 1 := ⟨fuel - 1, by omega⟩
  constructor
  · exact fun hr hcomma => commaLoop_of_last hitem hr hcomma fuel items
  · exact fun hlast => commaLoop_of_trailing hitem (stops_cons (by decide) _) hlast (fuel + 1) items

/-- A comma after an item is followed by an item, so it does not end the list. -/
theorem completes_items_more {w v : List Tok} {e : Expr} {es : List Expr}
    (hv : Derives lang .items v (.list es)) (h : Completes lang locals .cond w e)
    (hs : Completes lang locals .items v (.list es)) :
    Completes lang locals .items (w ++ .comma :: v) (.list (e :: es)) := by
  intro n hn last hlast r fuel items hfuel
  simp only [List.length_append, List.length_cons] at hn hfuel
  have hitem := reads_conditional h (n := n) (by omega)
  obtain ⟨fuel, rfl⟩ : ∃ m, fuel = m + 1 := ⟨fuel - 1, by omega⟩
  -- an item follows the comma
  obtain ⟨t, u, rfl, ht⟩ := hv.head
  have hnext : ∀ x : List Tok, last (t :: u ++ x).head? = false := fun x => hlast t ht
  obtain ⟨hone, htrailing⟩ := hs n (by omega) last hlast r fuel (items ++ [resolveIn locals e])
    (by simp only [List.length_append, List.length_cons] at hfuel ⊢; omega)
  have hlist : items ++ resolveAll locals (e :: es) =
      items ++ [resolveIn locals e] ++ resolveAll locals es := by
    rw [resolveAll, List.append_assoc]
    rfl
  rw [hlist]
  constructor
  · intro hr hcomma
    rw [List.append_assoc w]
    show commaLoop _ _ _ (fuel + 1) items (w ++ .comma :: (t :: u ++ r)) = _
    rw [commaLoop_of_more hitem (stops_cons (by decide) _) (hnext r)]
    exact hone hr hcomma
  · intro hend
    rw [List.append_assoc w]
    show commaLoop _ _ _ (fuel + 1 + 1) items (w ++ .comma :: (t :: u ++ .comma :: r)) = _
    rw [commaLoop_of_more hitem (stops_cons (by decide) _) (hnext _)]
    exact htrailing hend

/-- The items of a list or of a call, up to the closing token. -/
theorem itemsUntil_of_ne {close : Tok} {items : P (List Expr)} {w r : List Tok} {es : List Expr}
    (hne : (w ++ r).head? ≠ some close) (h : items (w ++ r) = .ok (es, r)) :
    itemsUntil close items (w ++ r) = .ok (es, r) := by
  rw [itemsUntil, bind_run, peek, Outcome.ok_bind]
  dsimp only
  rw [if_neg hne]
  exact h

/-- Items begin with no closing bracket, so a list with items is not taken for an empty one. -/
theorem head_items_ne {w : List Tok} {es : List Expr} (hw : Derives lang .items w (.list es))
    (close : Tok) (hclose : 2 < headLevel close) (r : List Tok) :
    (w ++ r).head? ≠ some close := by
  obtain ⟨t, u, rfl, ht⟩ := hw.head
  intro hhead
  obtain rfl := Option.some_inj.mp hhead
  have : headLevel t ≤ 2 := ht
  omega

/-- What may end a list: its closing bracket. -/
theorem last_rBracket {t : Tok} (ht : headLevel t ≤ 2) :
    decide (some t = some Tok.rBracket) = false := by
  cases t <;> first | rfl | exact absurd ht (by decide)

/-- A list literal with items. -/
theorem completes_list {w : List Tok} {es : List Expr} (hw : Derives lang .items w (.list es))
    (h : Completes lang locals .items w (.list es)) :
    Completes lang locals .primary (.lBracket :: (w ++ [.rBracket])) (.list es) := by
  intro n hn r _
  simp only [List.length_append, List.length_cons] at hn
  have hitems : commaList .comma (· = some .rBracket) (conditional lang locals n)
      (w ++ .rBracket :: r) = .ok (resolveAll locals es, .rBracket :: r) :=
    (h n (by omega) _ (fun _ => last_rBracket) (.rBracket :: r) _ [] (Nat.lt_succ_self _)).1
      (stops_cons (by decide) _) (by simp)
  have huntil := itemsUntil_of_ne (head_items_ne hw .rBracket (by decide) _) hitems
  show primaryAt lang locals n (.lBracket :: (w ++ [.rBracket] ++ r)) = _
  rw [List.append_assoc]
  show (itemsUntil .rBracket _ >>= fun items => expectTok .rBracket "`]`" >>= fun _ =>
    pure (Expr.list items)) (w ++ .rBracket :: r) = _
  rw [bind_run, huntil]
  rfl

/-- A comma before the closing bracket is allowed in both languages. -/
theorem completes_list_comma {w : List Tok} {es : List Expr}
    (hw : Derives lang .items w (.list es)) (h : Completes lang locals .items w (.list es)) :
    Completes lang locals .primary (.lBracket :: (w ++ [.comma, .rBracket])) (.list es) := by
  intro n hn r _
  simp only [List.length_append, List.length_cons] at hn
  have hlt : (w ++ .rBracket :: r).length < (w ++ .comma :: .rBracket :: r).length := by
    simp only [List.length_append, List.length_cons]
    omega
  have hitems : commaList .comma (· = some .rBracket) (conditional lang locals n)
      (w ++ .comma :: .rBracket :: r) = .ok (resolveAll locals es, .rBracket :: r) :=
    (h n (by omega) _ (fun _ => last_rBracket) (.rBracket :: r) _ [] hlt).2 rfl
  have huntil : itemsUntil .rBracket (commaList .comma (· = some .rBracket)
      (conditional lang locals n)) (w ++ .comma :: .rBracket :: r) =
      .ok (resolveAll locals es, .rBracket :: r) := by
    rw [itemsUntil, bind_run, peek, Outcome.ok_bind]
    dsimp only
    rw [if_neg (head_items_ne hw .rBracket (by decide) _)]
    exact hitems
  show primaryAt lang locals n (.lBracket :: (w ++ [.comma, .rBracket] ++ r)) = _
  rw [List.append_assoc]
  show (itemsUntil .rBracket _ >>= fun items => expectTok .rBracket "`]`" >>= fun _ =>
    pure (Expr.list items)) (w ++ .comma :: .rBracket :: r) = _
  rw [bind_run, huntil]
  rfl

/-- A call of a builtin by one of its names, with arguments. -/
theorem completes_call {x : String} {b : Builtin} {w : List Tok} {es : List Expr}
    (hb : x ∈ names b) (hw : Derives lang .items w (.list es))
    (h : Completes lang locals .items w (.list es)) :
    Completes lang locals .primary (.ident x :: .lParen :: (w ++ [.rParen])) (.call b es) := by
  intro n hn r _
  simp only [List.length_append, List.length_cons] at hn
  have hitems : commaList .comma (fun _ => false) (conditional lang locals n)
      (w ++ .rParen :: r) = .ok (resolveAll locals es, .rParen :: r) :=
    (h n (by omega) _ (fun _ _ => rfl) (.rParen :: r) _ [] (Nat.lt_succ_self _)).1
      (stops_cons (by decide) _) (by simp)
  have huntil := itemsUntil_of_ne (head_items_ne hw .rParen (by decide) _) hitems
  show primaryAt lang locals n (.ident x :: .lParen :: (w ++ [.rParen] ++ r)) = _
  rw [List.append_assoc]
  show (itemsUntil .rParen _ >>= fun args => expectTok .rParen "`)`" >>= fun _ =>
    lift (builtinFrom x) >>= fun b => pure (Expr.call b args)) (w ++ .rParen :: r) = _
  rw [bind_run, huntil, builtinFrom_eq_ok.mpr hb]
  rfl

/-- A call without arguments; how many a builtin takes is checked by the evaluator. -/
theorem completes_call_nil {x : String} {b : Builtin} (hb : x ∈ names b) :
    Completes lang locals .primary [.ident x, .lParen, .rParen] (.call b []) := by
  intro n _ r _
  show (lift (builtinFrom x) >>= fun b => pure (Expr.call b [])) r = _
  rw [builtinFrom_eq_ok.mpr hb]
  rfl

/-! ## Branches -/

/-- A condition, the part between braces, and what follows `else`. -/
theorem rustIf_of_else {w v u : List Tok} {c t f : Expr} {n fuel : ℕ}
    (hc : Completes lang locals .or w c) (ht : Completes lang locals .cond v t)
    (hw : w.length + 1 ≤ n) (hv : v.length + 2 ≤ n) {stop : List Tok → Prop}
    (helse : Reads stop (elsePart (conditional lang locals n)
      (rustIf (conditional lang locals n) (orExpr lang locals n) fuel)) u
      (resolveIn locals f)) :
    Reads stop (rustIf (conditional lang locals n) (orExpr lang locals n) (fuel + 1))
      (w ++ .lBrace :: (v ++ .rBrace :: .elseKw :: u)) (resolveIn locals (.ite c t f)) := by
  refine reads_closed (reads_orExpr hc hw) (stops_cons (by decide)) ?_
  refine reads_closed (reads_conditional ht hv) (stops_cons (by decide)) ?_
  refine Reads.expect_bind ?_
  exact helse.map (Expr.ite (resolveIn locals c) (resolveIn locals t))

/-- The last part of an `if` chain has both of its blocks. -/
theorem completes_branches_else {w v u : List Tok} {c t f : Expr}
    (hc : Completes lang locals .or w c) (ht : Completes lang locals .cond v t)
    (hf : Completes lang locals .cond u f) :
    Completes lang locals .branches
      (w ++ .lBrace :: (v ++ .rBrace :: .elseKw :: .lBrace :: (u ++ [.rBrace]))) (.ite c t f) := by
  intro n hn r fuel hfuel
  simp only [List.length_append, List.length_cons] at hn hfuel
  obtain ⟨fuel, rfl⟩ : ∃ m, fuel = m + 1 := ⟨fuel - 1, by omega⟩
  have helse : Reads (fun _ => True) (elsePart (conditional lang locals n)
      (rustIf (conditional lang locals n) (orExpr lang locals n) fuel))
      (.lBrace :: (u ++ [.rBrace])) (resolveIn locals f) := by
    refine Reads.peek_bind ?_
    rw [if_neg (by decide)]
    exact Reads.expect_bind (reads_closed (reads_conditional hf (by omega))
      (stops_cons (by decide)) (reads_pure _))
  exact rustIf_of_else hc ht (by omega) (by omega) helse r trivial

/-- An `else if` goes on with the chain. -/
theorem completes_branches_if {w v u : List Tok} {c t f : Expr}
    (hc : Completes lang locals .or w c) (ht : Completes lang locals .cond v t)
    (hf : Completes lang locals .branches u f) :
    Completes lang locals .branches
      (w ++ .lBrace :: (v ++ .rBrace :: .elseKw :: .ifKw :: u)) (.ite c t f) := by
  intro n hn r fuel hfuel
  simp only [List.length_append, List.length_cons] at hn hfuel
  obtain ⟨fuel, rfl⟩ : ∃ m, fuel = m + 1 := ⟨fuel - 1, by omega⟩
  -- the rest is fixed, because the bound on the chain counts its tokens
  have helse : Reads (· = r) (elsePart (conditional lang locals n)
      (rustIf (conditional lang locals n) (orExpr lang locals n) fuel))
      (.ifKw :: u) (resolveIn locals f) := by
    refine Reads.peek_bind ?_
    rw [if_pos rfl]
    refine Reads.advance_bind ?_
    rintro _ rfl
    exact hf n (by omega) _ fuel (by simp only [List.length_append]; omega)
  exact rustIf_of_else hc ht (by omega) (by omega) helse r rfl

/-! ## The induction -/

/-- **The parser reads every phrase of the grammar**, by induction on the derivation. -/
theorem completes {s : Sym} {w : List Tok} {e : Expr} (h : Derives lang s w e)
    (locals : List (String × UInt16)) : Completes lang locals s w e := by
  induction h with
  | cond _ ih => exact completes_cond ih
  | ternary hlang _ _ _ he ht hf => exact completes_ternary hlang he ht hf
  | or_one _ ih => exact fun n hn => Continues.one (reads_and ih hn)
  | or_more ht _ _ ha hb => exact completes_or_more ht ha hb
  | and_one _ ih => exact fun n hn => Continues.one (ih n hn)
  | and_more ht _ _ ha hb => exact completes_and_more ht ha hb
  | not_one h ih => exact completes_not_one h ih
  | not_more ht _ ih => exact completes_not_more ht ih
  | cmp_one _ ih => exact completes_cmp_one ih
  | cmp_chain _ ih => exact completes_cmp_chain ih
  | chain_one _ _ ha hb => exact completes_chain_one ha hb
  | chain_more _ _ he hc => exact completes_chain_more he hc
  | add_one _ ih => exact fun n hn => Continues.one (reads_mul ih hn)
  | add_more hop _ _ ha hb => exact completes_add_more hop ha hb
  | mul_one _ ih => exact fun n hn => Continues.one (ih n hn)
  | mul_more hop _ _ ha hb => exact completes_mul_more hop ha hb
  | unary_one h ih => exact completes_unary_one h ih
  | neg _ ih => exact completes_neg ih
  | postfix_one _ ih => exact fun n hn => Continues.one (ih n hn)
  | index _ _ he hi => exact completes_index he hi
  | contains _ _ he ha => exact completes_contains he ha
  | literal ht => exact completes_literal ht
  | paren _ ih => exact completes_paren ih
  | list_nil => exact fun _ _ _ _ => rfl
  | list h ih => exact completes_list h ih
  | list_comma h ih => exact completes_list_comma h ih
  | name => exact completes_name
  | call_nil hb => exact completes_call_nil hb
  | call hb h ih => exact completes_call hb h ih
  | ite hlang _ ih => exact completes_ite hlang ih
  | items_one _ ih => exact completes_items_one ih
  | items_more _ h ih hs => exact completes_items_more h ih hs
  | branches_else _ _ _ hc ht hf => exact completes_branches_else hc ht hf
  | branches_if _ _ _ hc ht hf => exact completes_branches_if hc ht hf

/-- **An expression of the grammar is read as its tree**, in front of anything that does
not continue it. -/
theorem reads_expr {w : List Tok} {e : Expr} (h : Derives lang .cond w e)
    (locals : List (String × UInt16)) :
    Reads (Stops 7) (expr lang locals) w (resolveIn locals e) := by
  intro r hr
  exact completes h locals (2 * (w ++ r).length + 1) (by simp only [List.length_append]; omega) r hr

end Grammar
