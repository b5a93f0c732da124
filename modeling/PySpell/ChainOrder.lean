/-
# The order in which a chain evaluates its operands

In Python a chain `a < b < c` evaluates its operands from left to right, each at most once,
and stops at the first comparison that fails.  The front ends build the conjunction of the
comparisons instead, with the operand between two of them in both, and `x in l` as
`contains(l, x)`.

A chain with marked operands (`Marked`) is evaluated with a trace of the operands
(`evalMarked`), and does what `eval` does (`instruments_evalMarked`).  `chain_follows_iff`
says when the trace and the result are those of Python: an operand is evaluated out of
order as soon as a second comparison gets to its left operand, or a first `in` to its right
one.
-/
import Mathlib.Data.List.Induction
import PySpell.EvalBudget
import PySpell.GrammarProgram

open Parse Eval StateOutcome

namespace Chain

/-! ## The trees of the front ends -/

/-- One comparison of a chain, with the operand behind it. -/
abbrev Link := CmpKind × Expr

/-- `ast::CmpOp`. -/
inductive AstCmpOp where
  | eq | notEq | lt | ltE | gt | gtE | isOp | isNot | inOp | notIn
  deriving DecidableEq

/-- `one_cmp` of the Python front end. -/
def oneCmp (op : AstCmpOp) (lhs rhs : Expr) : Outcome DslError Expr :=
  match op with
  | .eq => .ok (.cmp .eq lhs rhs)
  | .notEq => .ok (.cmp .ne lhs rhs)
  | .lt => .ok (.cmp .lt lhs rhs)
  | .ltE => .ok (.cmp .le lhs rhs)
  | .gt => .ok (.cmp .gt lhs rhs)
  | .gtE => .ok (.cmp .ge lhs rhs)
  | .inOp => .ok (.call .contains [rhs, lhs])
  | .notIn => .ok (.unary .not (.call .contains [rhs, lhs]))
  | .isOp | .isNot => .err (.forbidden "`is` / `is not`")

/-- The terms of `lower_compare`, from the `i`th on. -/
def oneCmps (operands : List Expr) : ℕ → List AstCmpOp → Outcome DslError (List Expr)
  | _, [] => .ok []
  | i, op :: ops => do
    let lhs ← .unwrap operands[i]?
    let rhs ← .unwrap operands[i + 1]?
    let term ← oneCmp op lhs rhs
    let terms ← oneCmps operands (i + 1) ops
    .ok (term :: terms)

/-- `lower_compare` of the Python front end, on operands that are lowered. -/
def lowerCompare (operands : List Expr) (ops : List AstCmpOp) : Outcome DslError Expr := do
  let terms ← oneCmps operands 0 ops
  match terms with
  | [] => .err (.parse "empty comparison")
  | term :: terms => .ok (terms.foldl (.bool .and) term)

/-- The comparison of the host's syntax tree. -/
def astOp : CmpKind → AstCmpOp
  | .cmp .eq => .eq
  | .cmp .ne => .notEq
  | .cmp .lt => .lt
  | .cmp .le => .ltE
  | .cmp .gt => .gt
  | .cmp .ge => .gtE
  | .isIn => .inOp
  | .notIn => .notIn

/-- The comparison that Python's tree names is lowered to the same term as the parser's. -/
theorem oneCmp_astOp (k : CmpKind) (lhs rhs : Expr) :
    oneCmp (astOp k) lhs rhs = .ok (cmpTerm k lhs rhs) := by
  cases k with
  | cmp op => cases op <;> rfl
  | isIn => rfl
  | notIn => rfl

/-! ## Marked operands -/

/-- A tree that is made of comparisons of numbered operands. -/
inductive Marked where
  | operand (i : ℕ) (e : Expr)
  | cmp (op : CmpOp) (a b : Marked)
  | and (a b : Marked)
  | contains (l x : Marked)
  | not (a : Marked)

namespace Marked

/-- The tree without the numbers. -/
def erase : Marked → Expr
  | .operand _ e => e
  | .cmp op a b => .cmp op a.erase b.erase
  | .and a b => .bool .and a.erase b.erase
  | .contains l x => .call .contains [l.erase, x.erase]
  | .not a => .unary .not a.erase

/-- `cmpTerm`, with marks. -/
def term (k : CmpKind) (lhs rhs : Marked) : Marked :=
  match k with
  | .cmp op => .cmp op lhs rhs
  | .isIn => .contains rhs lhs
  | .notIn => .not (.contains rhs lhs)

/-- The comparisons behind the operand `a`, which has the number `i`. -/
def terms : ℕ → Expr → List Link → List Marked
  | _, _, [] => []
  | i, a, (k, b) :: ls => term k (.operand i a) (.operand (i + 1) b) :: terms (i + 1) b ls

/-- The conjunction of the comparisons of a chain. -/
def chain (a : Expr) (l : Link) (ls : List Link) : Marked :=
  (terms 1 l.2 ls).foldl .and (term l.1 (.operand 0 a) (.operand 1 l.2))

/-- Without the marks, a link is the comparison. -/
@[simp] theorem erase_term (k : CmpKind) (lhs rhs : Marked) :
    (term k lhs rhs).erase = cmpTerm k lhs.erase rhs.erase := by
  cases k <;> rfl

/-- Without the marks, the conjunction is that of the erased links. -/
theorem erase_foldl (t : Marked) (ts : List Marked) :
    (ts.foldl .and t).erase = (ts.map erase).foldl (.bool .and) t.erase := by
  induction ts generalizing t with
  | nil => rfl
  | cons u ts ih => exact ih (.and t u)

/-- There are as many terms as links. -/
@[simp] theorem length_terms (i : ℕ) (a : Expr) (ls : List Link) :
    (terms i a ls).length = ls.length := by
  induction ls generalizing i a with
  | nil => rfl
  | cons l ls ih => rw [terms, List.length_cons, List.length_cons, ih]

end Marked

open Marked

/-- The terms of `cmp_expr`, behind some operands. -/
theorem cmpTerms_eq (ls : List Link) : ∀ (pre : List Expr) (a : Expr),
    cmpTerms (pre ++ a :: ls.map Prod.snd) pre.length (ls.map Prod.fst) =
      .ok ((terms pre.length a ls).map erase) := by
  induction ls with
  | nil => exact fun _ _ => rfl
  | cons l ls ih =>
    intro pre a
    obtain ⟨k, b⟩ := l
    have hrest := ih (pre ++ [a]) b
    rw [List.append_assoc, List.length_append] at hrest
    have ha : (pre ++ a :: b :: ls.map Prod.snd)[pre.length]? = some a := by simp
    have hb : (pre ++ a :: b :: ls.map Prod.snd)[pre.length + 1]? = some b := by
      rw [List.getElem?_append_right (Nat.le_succ _)]
      simp
    simp only [List.map_cons, cmpTerms, ha, hb, Outcome.unwrap_some, Outcome.ok_bind]
    rw [show pre ++ a :: b :: ls.map Prod.snd = pre ++ ([a] ++ b :: ls.map Prod.snd) from rfl,
      show pre.length + 1 = pre.length + [a].length from rfl, hrest, Outcome.ok_bind, terms,
      List.map_cons, erase_term]
    rfl

/-- The terms of a whole chain. -/
theorem cmpTerms_chain (a : Expr) (l : Link) (ls : List Link) :
    cmpTerms (a :: (l :: ls).map Prod.snd) 0 ((l :: ls).map Prod.fst) =
      .ok (cmpTerm l.1 a l.2 :: (terms 1 l.2 ls).map erase) := by
  have hterms := cmpTerms_eq (l :: ls) [] a
  rw [List.nil_append, List.length_nil, terms] at hterms
  rw [hterms, List.map_cons, erase_term]
  rfl

/-- **`cmp_expr` builds the marked tree.** -/
theorem cmpChain_eq (a : Expr) (l : Link) (ls : List Link) :
    cmpChain (a :: (l :: ls).map Prod.snd) ((l :: ls).map Prod.fst) = .ok (chain a l ls).erase := by
  have hterms := cmpTerms_chain a l ls
  rw [List.map_cons, List.map_cons] at hterms ⊢
  rw [cmpChain.eq_def]
  dsimp only
  rw [hterms, Outcome.ok_bind, chain, erase_foldl, erase_term]
  rfl

/-- The loop over Python's comparisons makes the terms of the chain. -/
theorem oneCmps_astOp (operands : List Expr) (ks : List CmpKind) (i : ℕ) :
    oneCmps operands i (ks.map astOp) = cmpTerms operands i ks := by
  induction ks generalizing i with
  | nil => rfl
  | cons k ks ih => simp only [List.map_cons, oneCmps, cmpTerms, oneCmp_astOp, Outcome.ok_bind, ih]

/-- **`lower_compare` builds the same tree.** -/
theorem lowerCompare_eq (a : Expr) (l : Link) (ls : List Link) :
    lowerCompare (a :: (l :: ls).map Prod.snd) (((l :: ls).map Prod.fst).map astOp) =
      .ok (chain a l ls).erase := by
  rw [lowerCompare, oneCmps_astOp, cmpTerms_chain, Outcome.ok_bind, chain, erase_foldl, erase_term]
  rfl

/-! ### The text of a chain -/

/-- The tokens behind the first operand of a chain, from the tokens of its operands. -/
def linkToks : List (CmpKind × List Tok × Expr) → List Tok
  | [] => []
  | (k, v, _) :: ls => Grammar.cmpToks k ++ (v ++ linkToks ls)

def linkOf (l : CmpKind × List Tok × Expr) : Link := (l.1, l.2.2)

open Grammar in
/-- The chain of an expression and the links behind it. -/
theorem derives_links {lang : Lang} (ls : List (CmpKind × List Tok × Expr))
    (hls : ∀ l ∈ ls, Derives lang .add l.2.1 l.2.2) :
    ∀ {i : ℕ} {w : List Tok} {t : Marked} {b : Expr}, Derives lang (.chain b) w t.erase →
      Derives lang .cmp (w ++ linkToks ls) ((terms i b (ls.map linkOf)).foldl .and t).erase := by
  induction ls with
  | nil =>
    intro i w t b h
    rw [linkToks, List.append_nil]
    exact .cmp_chain h
  | cons l ls ih =>
    intro i w t b h
    obtain ⟨k, v, c⟩ := l
    have hmore := Derives.chain_more (k := k) h (hls _ List.mem_cons_self)
    have hchain : Derives lang (.chain c) (w ++ (cmpToks k ++ v))
        (Marked.and t (term k (.operand i b) (.operand (i + 1) c))).erase := by
      rw [erase, erase_term]
      exact hmore
    have hrest := ih (fun l hl => hls l (List.mem_cons_of_mem _ hl)) (i := i + 1) hchain
    rw [List.append_assoc, List.append_assoc] at hrest
    exact hrest

open Grammar in
/-- **The tree of the text of a chain is the marked tree**, in either language. -/
theorem derives_chain {lang : Lang} {w : List Tok} {a : Expr} {l : CmpKind × List Tok × Expr}
    {ls : List (CmpKind × List Tok × Expr)} (ha : Derives lang .add w a)
    (hl : ∀ x ∈ l :: ls, Derives lang .add x.2.1 x.2.2) :
    Derives lang .cmp (w ++ linkToks (l :: ls)) (chain a (linkOf l) (ls.map linkOf)).erase := by
  obtain ⟨k, v, b⟩ := l
  rw [List.forall_mem_cons] at hl
  have hfirst : Derives lang (.chain b) (w ++ (cmpToks k ++ v))
      (term k (.operand 0 a) (.operand 1 b)).erase := by
    rw [erase_term]
    exact .chain_one ha hl.1
  have hcmp := derives_links ls hl.2 (i := 1) hfirst
  rw [List.append_assoc, List.append_assoc] at hcmp
  exact hcmp

/-- The program of a chain. -/
def program (a : Expr) (l : Link) (ls : List Link) : Program where
  body := []
  ret := (chain a l ls).erase
  nLocals := 0
  maxSteps := defaultMaxSteps

open Grammar in
/-- **The program of the text of a chain.** -/
theorem parse_chain {src : String} {lang : Lang} {w : List Tok} {a : Expr}
    {l : CmpKind × List Tok × Expr} {ls : List (CmpKind × List Tok × Expr)}
    (hlex : Lex.lex src = .ok (w ++ linkToks (l :: ls))) (ha : Derives lang .add w a)
    (hl : ∀ x ∈ l :: ls, Derives lang .add x.2.1 x.2.2) :
    parse src lang = .ok (program a (linkOf l) (ls.map linkOf)) := by
  have hcmp := derives_chain ha hl
  have hprogram := program_of_derivation (.ret (.cond (.or_one (.and_one (.not_one hcmp)))))
  rw [parse, hlex, Outcome.ok_bind, hprogram]
  simp [compiled, bindTrees, resolveIn_nil, program]

/-! ## Evaluation with a trace -/

/-- The operands that were evaluated, in order, each with what came out. -/
abbrev Trace := List (ℕ × Outcome DslError Value)

/-- A computation of the evaluator, with a trace. -/
abbrev TracedRun (α : Type) := StateOutcome (Frame × Trace) DslError α

section Evaluation

variable (host : Host)

/-- Evaluate the operand with the number `i`. -/
def evalOperand (i : ℕ) (e : Expr) : TracedRun Value := traced (fun r => (i, r)) (eval host e)

/-- `eval` on a marked tree. -/
def evalMarked : Marked → TracedRun Value
  | .operand i e => evalOperand host i e
  | .cmp op a b => do
    untraced (tick host)
    let x ← evalMarked a
    let y ← evalMarked b
    StateOutcome.lift (.ofExcept ((compare op x y).map .bool))
  | .and a b => do
    untraced (tick host)
    let l ← evalMarked a
    match asBool l with
    | false => pure (.bool false)
    | true => do
      let r ← evalMarked b
      pure (.bool (asBool r))
  | .contains l x => do
    untraced (tick host)
    let v ← evalMarked l
    let w ← evalMarked x
    untraced (evalCall host .contains [v, w])
  | .not a => do
    untraced (tick host)
    let v ← evalMarked a
    pure (.bool (!asBool v))

/-- Two arguments are evaluated from left to right. -/
theorem evalArgs_pair (a b : Expr) :
    evalArgs host [a, b] = eval host a >>= fun x => eval host b >>= fun y => pure [x, y] := by
  rw [evalArgs, evalArgs, evalArgs]
  congr 1
  funext x
  rw [bind_assoc]
  rfl

/-- **The traced evaluation does what `eval` does.** -/
theorem instruments_evalMarked (m : Marked) :
    Instruments (evalMarked host m) (eval host m.erase) := by
  induction m with
  | operand i e => exact Instruments.traced _ _
  | cmp op a b iha ihb =>
    rw [evalMarked, erase, eval]
    exact (Instruments.untraced _).bind fun _ => iha.bind fun x => ihb.bind fun y =>
      Instruments.lift _
  | and a b iha ihb =>
    rw [evalMarked, erase, eval]
    refine (Instruments.untraced _).bind fun _ => iha.bind fun l => ?_
    cases asBool l with
    | false => exact Instruments.pure _
    | true => exact ihb.bind fun r => Instruments.pure _
  | contains l x ihl ihx =>
    rw [evalMarked, erase, eval, evalArgs_pair, bind_assoc]
    refine (Instruments.untraced _).bind fun _ => ihl.bind fun v => ?_
    rw [bind_assoc]
    exact ihx.bind fun w => Instruments.untraced _
  | not a ih =>
    rw [evalMarked, erase, eval]
    exact (Instruments.untraced _).bind fun _ => ih.bind fun v => Instruments.pure _

/-- The operands that the evaluation of a chain evaluates, from a frame. -/
def operandTrace (a : Expr) (l : Link) (ls : List Link) (f : Frame) : Trace :=
  (evalMarked host (chain a l ls) (f, [])).2.2

/-! ### The conjunctions -/

/-- A step for each of `n` nodes. -/
def steps : ℕ → Run Unit
  | 0 => pure ()
  | n + 1 => do
    tick host
    steps n

/-- The terms behind a term that has the value `v`. -/
def andThen (v : Value) : List Marked → TracedRun Value
  | [] => pure v
  | t :: ts =>
    match asBool v with
    | false => pure (.bool false)
    | true => do
      let w ← evalMarked host t
      andThen (.bool (asBool w)) ts

/-- The last term of a conjunction. -/
def andLast (u : Marked) (v : Value) : TracedRun Value :=
  match asBool v with
  | false => pure (.bool false)
  | true => do
    let w ← evalMarked host u
    pure (.bool (asBool w))

/-- After a false term nothing is evaluated. -/
@[simp] theorem andThen_false (ts : List Marked) :
    andThen host (.bool false) ts = pure (.bool false) := by
  cases ts <;> rfl

/-- After a true term the next one is, and its truth is the value. -/
@[simp] theorem andThen_true (t : Marked) (ts : List Marked) :
    andThen host (.bool true) (t :: ts) =
      evalMarked host t >>= fun w => andThen host (.bool (asBool w)) ts :=
  rfl

/-- A term at the end is evaluated after all others, if they are true. -/
theorem andThen_append (ts : List Marked) (u : Marked) (v : Value) :
    andThen host v (ts ++ [u]) = andThen host v ts >>= andLast host u := by
  induction ts generalizing v with
  | nil => rfl
  | cons t ts ih =>
    rw [List.cons_append, andThen, andThen]
    cases asBool v with
    | false => rfl
    | true =>
      dsimp only
      rw [bind_assoc]
      congr 1
      funext w
      exact ih (.bool (asBool w))

/-- **A conjunction takes its steps first**, then its terms up to the first that is false. -/
theorem evalMarked_foldl (t : Marked) (ts : List Marked) :
    evalMarked host (ts.foldl .and t) =
      untraced (steps host ts.length) >>= fun _ => evalMarked host t >>= fun v =>
        andThen host v ts := by
  induction ts using List.reverseRecOn with
  | nil => exact (bind_pure (evalMarked host t)).symm
  | append_singleton ts u ih =>
    rw [List.foldl_append, List.foldl_cons, List.foldl_nil, evalMarked, ih, List.length_append,
      List.length_singleton, steps, untraced_bind]
    simp only [bind_assoc, andThen_append]
    rfl

/-! ## The order of Python -/

/-- What a comparison of two values says, if it does not fail. -/
def linkHolds (k : CmpKind) (x y : Value) : Option Bool :=
  match k with
  | .cmp op => (compare op x y).toOption
  | .isIn => (pureBuiltin host .contains [y, x]).toOption.map asBool
  | .notIn => (pureBuiltin host .contains [y, x]).toOption.map fun v => !asBool v

/-- The conjunction of the comparisons, up to the first that is false. -/
def conjunctionOf : List CmpKind → List Value → Option Bool
  | [], _ => some true
  | k :: ks, x :: y :: vs =>
    match linkHolds host k x y with
    | some true => conjunctionOf ks (y :: vs)
    | some false => some false
    | none => none
  | _ :: _, _ => none

/-- The trace and the result are those of a chain in Python. -/
structure FollowsPython (ks : List CmpKind) (seen : Trace) (out : Outcome DslError Value) :
    Prop where
  /-- The operands are evaluated from left to right, each at most once. -/
  in_order : seen.map Prod.fst = List.range seen.length
  /-- Nothing is evaluated behind a comparison that is false. -/
  stops : ∀ i k x y, ks[i]? = some k → seen[i]? = some (i, .ok x) →
    seen[i + 1]? = some (i + 1, .ok y) → linkHolds host k x y = some false →
      seen.length = i + 2
  /-- The result is the conjunction of the comparisons. -/
  value : ∀ v, out = .ok v → ∃ vals b, seen.map Prod.snd = vals.map .ok ∧
    v = .bool b ∧ conjunctionOf host ks vals = some b

/-- The first two operands, behind the steps for `n` conjunctions and a comparison. -/
def firstOperands (a b : Expr) (n : ℕ) : Run (Value × Value) := do
  steps host n
  tick host
  let x ← eval host a
  let y ← eval host b
  pure (x, y)

/-- What a comparison evaluates in front of its operands. -/
def opening (k : CmpKind) : Run Unit :=
  match k with
  | .notIn => do
    tick host
    tick host
  | _ => tick host

/-- What a comparison evaluates in front of its left operand: the list of an `in` is first. -/
def beforeLeft (k : CmpKind) (b : Expr) : Run Unit :=
  match k with
  | .cmp _ => opening host k
  | k => do
    opening host k
    let _ ← eval host b
    pure ()

/-- **An operand is evaluated out of order**: the first comparison is an `in` and gets to
its operands, or it is true and the second gets to its left operand. -/
def Misplaces (a : Expr) (l : Link) (ls : List Link) (f : Frame) : Prop :=
  match l.1, ls with
  | .cmp _, [] => False
  | .cmp op, (k, c) :: _ => ∃ x y f',
    firstOperands host a l.2 ls.length f = (.ok (x, y), f') ∧ compare op x y = .ok true ∧
      (beforeLeft host k c f').1 = .ok ()
  | k, _ => ((steps host ls.length >>= fun _ => opening host k) f).1 = .ok ()

/-! ### Traces that are cut short -/

variable {host}

/-- Without a result and with two operands at most there is nothing to check. -/
theorem follows_of_short {ks : List CmpKind} {seen : Trace} {out : Outcome DslError Value}
    (hout : out.toOption = none) (horder : seen.map Prod.fst = List.range seen.length)
    (hlen : seen.length ≤ 2) : FollowsPython host ks seen out := by
  refine ⟨horder, fun i k x y _ _ hy _ => ?_, fun v hv => ?_⟩
  · have := (List.getElem?_eq_some_iff.mp hy).1
    omega
  · rw [hv] at hout
    cases hout

/-- An entry with the wrong number. -/
theorem not_follows {ks : List CmpKind} {t t' : Trace} {i : ℕ} {r : Outcome DslError Value}
    {out : Outcome DslError Value} (hi : i ≠ t.length) :
    ¬ FollowsPython host ks (t ++ (i, r) :: t') out := by
  intro h
  have hget := congrArg (fun l => l[t.length]?) h.in_order
  simp only [List.getElem?_map, List.length_append, List.length_cons] at hget
  rw [List.getElem?_append_right le_rfl, Nat.sub_self] at hget
  simp at hget
  exact hi hget

/-- Terms that are evaluated add to the record, and take nothing from it. -/
theorem grows_andThen (v : Value) (ts : List Marked) : Grows Prod.snd (andThen host v ts) := by
  induction ts generalizing v with
  | nil => exact Grows.pure _
  | cons t ts ih =>
    rw [andThen]
    cases asBool v with
    | false => exact Grows.pure _
    | true => exact (instruments_evalMarked host t).grows.bind fun w => ih _

/-- An operand that is evaluated stands in the trace. -/
theorem trace_operand {i : ℕ} {e : Expr} {K : Value → TracedRun Value}
    (hK : ∀ x, Grows Prod.snd (K x)) (f : Frame) (t : Trace) :
    ∃ r t', ((evalOperand host i e >>= K) (f, t)).2.2 = t ++ (i, r) :: t' := by
  have hgrows : ∃ t', ((evalOperand host i e >>= K) (f, t)).2.2 =
      t ++ [(i, (eval host e f).1)] ++ t' := by
    rw [bind_run, evalOperand, traced]
    dsimp only
    rcases eval host e f with ⟨x | e | _ | _, f'⟩
    · obtain ⟨t', ht⟩ := hK x (f', t ++ [(i, .ok x)])
      exact ⟨t', ht.symm⟩
    all_goals exact ⟨[], (List.append_nil _).symm⟩
  obtain ⟨t', ht⟩ := hgrows
  exact ⟨_, t', by rw [ht, List.append_assoc]; rfl⟩

/-- A computation without a trace, before another one. -/
theorem untraced_cases {α : Type} (m : Run α) (K : α → TracedRun Value) (f : Frame) (t : Trace) :
    (∃ a f', m f = (.ok a, f') ∧ (untraced m >>= K) (f, t) = K a (f', t)) ∨
      (m f).1.toOption = none ∧ ((untraced m >>= K) (f, t)).1.toOption = none ∧
        ((untraced m >>= K) (f, t)).2.2 = t := by
  rcases ok_or_none m f with ⟨a, f', hm⟩ | hm
  · refine Or.inl ⟨a, f', hm, bind_run_of_ok ?_⟩
    rw [untraced, hm]
  · obtain ⟨hnone, hstate⟩ := bind_run_of_none (m := untraced m) (s := (f, t)) hm K
    exact Or.inr ⟨hm, hnone, congrArg Prod.snd hstate⟩

/-- An operand, before another computation. -/
theorem operand_cases (i : ℕ) (e : Expr) (K : Value → TracedRun Value) (f : Frame) (t : Trace) :
    (∃ x f', eval host e f = (.ok x, f') ∧
        (evalOperand host i e >>= K) (f, t) = K x (f', t ++ [(i, .ok x)])) ∨
      ∃ r, (eval host e f).1.toOption = none ∧ r.toOption = none ∧
        ((evalOperand host i e >>= K) (f, t)).1.toOption = none ∧
        ((evalOperand host i e >>= K) (f, t)).2.2 = t ++ [(i, r)] := by
  rcases ok_or_none (eval host e) f with ⟨x, f', he⟩ | he
  · refine Or.inl ⟨x, f', he, bind_run_of_ok ?_⟩
    rw [evalOperand, traced, he]
  · obtain ⟨hnone, hstate⟩ := bind_run_of_none (m := evalOperand host i e) (s := (f, t)) he K
    exact Or.inr ⟨(eval host e f).1, he, he, hnone, congrArg Prod.snd hstate⟩

/-- **The first two operands**: both have values, or the evaluation ends. -/
theorem run_firstOperands (a b : Expr) (n : ℕ) (K : Value → Value → TracedRun Value) (f : Frame)
    {R : Outcome DslError Value × Frame × Trace}
    (hR : (untraced (steps host n) >>= fun _ => untraced (tick host) >>= fun _ =>
      evalOperand host 0 a >>= fun x => evalOperand host 1 b >>= K x) (f, []) = R) :
    (∃ x y f', firstOperands host a b n f = (.ok (x, y), f') ∧
        R = K x y (f', [(0, .ok x), (1, .ok y)])) ∨
      (firstOperands host a b n f).1.toOption = none ∧ R.1.toOption = none ∧
        R.2.2.map Prod.fst = List.range R.2.2.length ∧ R.2.2.length ≤ 2 := by
  subst hR
  unfold firstOperands
  rcases untraced_cases (steps host n) _ f [] with ⟨_, f₁, hsteps, hrun⟩ | ⟨hsteps, hnone, ht⟩
  swap
  · exact Or.inr ⟨(bind_run_of_none hsteps _).1, hnone, by rw [ht]; decide⟩
  rw [hrun, bind_run_of_ok hsteps]
  rcases untraced_cases (tick host) _ f₁ [] with ⟨_, f₂, htick, hrun⟩ | ⟨htick, hnone, ht⟩
  swap
  · exact Or.inr ⟨(bind_run_of_none htick _).1, hnone, by rw [ht]; decide⟩
  rw [hrun, bind_run_of_ok htick]
  rcases operand_cases 0 a _ f₂ [] with ⟨x, f₃, ha, hrun⟩ | ⟨r, ha, -, hnone, ht⟩
  swap
  · exact Or.inr ⟨(bind_run_of_none ha _).1, hnone, by rw [ht]; exact ⟨rfl, by simp⟩⟩
  rw [hrun, bind_run_of_ok ha]
  rcases operand_cases 1 b _ f₃ _ with ⟨y, f₄, hb, hrun⟩ | ⟨r, hb, -, hnone, ht⟩
  swap
  · exact Or.inr ⟨(bind_run_of_none hb _).1, hnone, by rw [ht]; exact ⟨rfl, by simp⟩⟩
  rw [hrun, bind_run_of_ok hb]
  exact Or.inl ⟨x, y, f₄, rfl, rfl⟩

/-- An `in` evaluates its list first. -/
theorem evalMarked_in {k : CmpKind} (hk : k = .isIn ∨ k = .notIn) (i j : ℕ) (a b : Expr) :
    ∃ K : Value → Value → TracedRun Value, (∀ v w, Grows Prod.snd (K v w)) ∧
      evalMarked host (term k (.operand i a) (.operand j b)) =
        untraced (opening host k) >>= fun _ => evalOperand host j b >>= fun v =>
          evalOperand host i a >>= K v := by
  rcases hk with rfl | rfl
  · exact ⟨fun v w => untraced (evalCall host .contains [v, w]),
      fun v w => (Instruments.untraced _).grows, rfl⟩
  · refine ⟨fun v w => untraced (evalCall host .contains [v, w]) >>= fun v =>
      pure (.bool (!asBool v)), fun v w => (Instruments.untraced _).grows.bind fun v =>
        Grows.pure _, ?_⟩
    simp only [term, evalMarked, opening, untraced_bind, bind_assoc]

/-- **A second comparison** gets to its left operand, which is there twice then, or the
evaluation ends before. -/
theorem run_secondLink (k : CmpKind) (b c : Expr) {K : Value → TracedRun Value}
    (hK : ∀ v, Grows Prod.snd (K v)) (f : Frame) (t : Trace) :
    ((beforeLeft host k c f).1 = .ok () ∧ ∃ pre r t', pre.length ≤ 1 ∧
        ((evalMarked host (term k (.operand 1 b) (.operand 2 c)) >>= K) (f, t)).2.2 =
          t ++ pre ++ (1, r) :: t') ∨
      (beforeLeft host k c f).1.toOption = none ∧
        ((evalMarked host (term k (.operand 1 b) (.operand 2 c)) >>= K) (f, t)).1.toOption = none ∧
        ∃ rs : List (Outcome DslError Value), rs.length ≤ 1 ∧ (∀ r ∈ rs, r.toOption = none) ∧
          ((evalMarked host (term k (.operand 1 b) (.operand 2 c)) >>= K) (f, t)).2.2 =
            t ++ rs.map fun r => (2, r) := by
  -- `in` takes a step of its own before the right operand
  by_cases hk : k = .isIn ∨ k = .notIn
  · obtain ⟨K', hK', heq⟩ := @evalMarked_in host k hk 1 2 b c
    have hbefore : beforeLeft host k c = opening host k >>= fun _ => eval host c >>= fun _ =>
        pure () := by
      rcases hk with rfl | rfl <;> rfl
    rw [heq, hbefore, bind_assoc]
    rcases untraced_cases (opening host k) (fun _ => _) f t with
      ⟨_, f₁, hopen, hrun⟩ | ⟨hopen, hnone, htrace⟩
    -- nothing of the left operand was evaluated
    swap
    · exact Or.inr ⟨(bind_run_of_none hopen _).1, hnone, [], by simp, by simp, by rw [htrace]; simp⟩
    rw [hrun, bind_run_of_ok hopen, bind_assoc]
    rcases operand_cases 2 c (fun _ => _) f₁ t with
      ⟨x, f₂, hc, hrun⟩ | ⟨r, hc, hr, hnone, htrace⟩
    swap
    · exact Or.inr ⟨(bind_run_of_none hc _).1, hnone, [r], by simp, by simpa using hr, htrace⟩
    rw [hrun, bind_run_of_ok hc, bind_assoc]
    obtain ⟨r, t', hleft⟩ := trace_operand (i := 1) (e := b)
      (fun w => (hK' x w).bind hK) f₂ (t ++ [(2, .ok x)])
    exact Or.inl ⟨rfl, [(2, .ok x)], r, t', by simp, hleft⟩
  · obtain ⟨op, rfl⟩ : ∃ op, k = .cmp op := by
      cases k with
      | cmp op => exact ⟨op, rfl⟩
      | isIn => exact absurd (Or.inl rfl) hk
      | notIn => exact absurd (Or.inr rfl) hk
    rw [term, evalMarked, bind_assoc]
    rcases untraced_cases (tick host) (fun _ => _) f t with
      ⟨_, f₁, hopen, hrun⟩ | ⟨hopen, hnone, htrace⟩
    swap
    · exact Or.inr ⟨hopen, hnone, [], by simp, by simp, by rw [htrace]; simp⟩
    rw [hrun, evalMarked, bind_assoc]
    obtain ⟨r, t', hleft⟩ := trace_operand (i := 1) (e := b)
      (fun x => ((instruments_evalMarked host (.operand 2 c)).grows.bind fun y =>
        Grows.lift _).bind hK) f₁ t
    exact Or.inl ⟨congrArg Prod.fst hopen, [], r, t', by simp, by rw [List.append_nil]; exact hleft⟩

/-! ### The whole chain -/

/-- A chain whose first comparison is not an `in`, with its operands in front. -/
theorem evalMarked_cmp (op : CmpOp) (a b : Expr) (ls : List Link) :
    evalMarked host (chain a (.cmp op, b) ls) =
      untraced (steps host ls.length) >>= fun _ => untraced (tick host) >>= fun _ =>
        evalOperand host 0 a >>= fun x => evalOperand host 1 b >>= fun y =>
          StateOutcome.lift (.ofExcept ((compare op x y).map .bool)) >>= fun v =>
            andThen host v (terms 1 b ls) := by
  rw [chain, evalMarked_foldl, length_terms, term, evalMarked]
  simp only [bind_assoc]
  rfl

/-- The trace of two operands is that of Python when the comparison is the last one that
counts. -/
theorem follows_two {op : CmpOp} {ks : List CmpKind} {x y : Value} {b : Bool}
    (hcompare : compare op x y = .ok b) (hlast : b = true → ks = []) :
    FollowsPython host (.cmp op :: ks) [(0, .ok x), (1, .ok y)] (.ok (.bool b)) := by
  have hholds : linkHolds host (.cmp op) x y = some b := by
    rw [linkHolds, hcompare]
    rfl
  constructor
  · rfl
  · intro i k x' y' hk hx hy hfalse
    cases i with
    | zero => rfl
    | succ i => cases hy
  · intro v hv
    obtain rfl : Value.bool b = v := Outcome.ok.inj hv
    refine ⟨[x, y], b, rfl, rfl, ?_⟩
    rw [conjunctionOf, hholds]
    cases b with
    | false => rfl
    | true => rw [hlast rfl]; rfl

/-- Behind two operands, a third one that fails. -/
theorem follows_failed {op : CmpOp} {ks : List CmpKind} {x y : Value}
    {rs : List (Outcome DslError Value)} {out : Outcome DslError Value}
    (hcompare : compare op x y = .ok true) (hlen : rs.length ≤ 1)
    (hfail : ∀ r ∈ rs, r.toOption = none) (hout : out.toOption = none) :
    FollowsPython host (.cmp op :: ks)
      ([(0, .ok x), (1, .ok y)] ++ rs.map fun r => (2, r)) out := by
  match rs, hlen with
  | [], _ => exact follows_of_short hout rfl (by simp)
  | [r], _ =>
    have hr : r.toOption = none := hfail r List.mem_cons_self
    constructor
    · rfl
    · intro i k x' y' hk hx hy hfalse
      match i with
      | 0 =>
        cases hk
        cases hx
        cases hy
        rw [linkHolds, hcompare] at hfalse
        cases hfalse
      | 1 =>
        obtain rfl : r = .ok y' := congrArg Prod.snd (Option.some.inj hy)
        cases hr
    · intro v hv
      rw [hv] at hout
      cases hout

/-- A chain whose first comparison is not an `in`. -/
theorem follows_cmp_iff (op : CmpOp) (a b : Expr) (ls : List Link) (f : Frame) :
    FollowsPython host (.cmp op :: ls.map Prod.fst) (operandTrace host a (.cmp op, b) ls f)
      (evalMarked host (chain a (.cmp op, b) ls) (f, [])).1 ↔
        ¬ Misplaces host a (.cmp op, b) ls f := by
  unfold operandTrace
  generalize hR : evalMarked host (chain a (.cmp op, b) ls) (f, []) = R
  rw [evalMarked_cmp] at hR
  rcases run_firstOperands a b ls.length _ f hR with
    ⟨x, y, f', hfirst, rfl⟩ | ⟨hfirst, hnone, horder, hlen⟩
  swap
  · -- one of the first two operands fails, and nothing comes after it
    refine iff_of_true (follows_of_short hnone horder hlen) ?_
    cases ls with
    | nil => exact id
    | cons l ls =>
      rintro ⟨x, y, f', hfirst', -⟩
      rw [hfirst'] at hfirst
      cases hfirst
  -- with both evaluated, the fault is a matter of the next link
  have hmis : ∀ {l ls'}, ls = l :: ls' → (Misplaces host a (.cmp op, b) ls f ↔
      compare op x y = .ok true ∧ (beforeLeft host l.1 l.2 f').1 = .ok ()) := by
    rintro l ls' rfl
    constructor
    · rintro ⟨x', y', f'', hfirst', hcompare, hbefore⟩
      rw [hfirst] at hfirst'
      cases hfirst'
      exact ⟨hcompare, hbefore⟩
    · rintro ⟨hcompare, hbefore⟩
      exact ⟨x, y, f', hfirst, hcompare, hbefore⟩
  cases hcompare : compare op x y with
  -- the operands cannot be compared
  | error e =>
    refine iff_of_true (follows_of_short rfl rfl le_rfl) ?_
    cases ls with
    | nil => exact id
    | cons l ls =>
      rw [hmis rfl, hcompare]
      rintro ⟨h, -⟩
      cases h
  | ok c =>
    have hlift : (StateOutcome.lift (.ofExcept (Except.map Value.bool (.ok c))) :
        TracedRun Value) = pure (.bool c) := rfl
    rw [hlift]
    change FollowsPython host _ (andThen host (.bool c) (terms 1 b ls) _).2.2
      (andThen host (.bool c) (terms 1 b ls) _).1 ↔ _
    cases ls with
    | nil => exact iff_of_true (follows_two hcompare fun _ => rfl) id
    | cons l ls =>
      obtain ⟨k, d⟩ := l
      rw [hmis rfl, hcompare, terms]
      cases c with
      -- Python stops at a false comparison, and so does the conjunction
      | false =>
        rw [andThen_false]
        refine iff_of_true (follows_two hcompare fun h => ?_) ?_
        · cases h
        · rintro ⟨h, -⟩
          cases h
      | true =>
        rw [andThen_true]
        rcases run_secondLink k b d (K := fun w => andThen host (.bool (asBool w)) (terms 2 d ls))
          (fun w => grows_andThen _ _) f' [(0, .ok x), (1, .ok y)] with
          ⟨hbefore, pre, r, t', hpre, htrace⟩ | ⟨hbefore, hnone, rs, hrs, hfail, htrace⟩
        · refine iff_of_false ?_ (not_not_intro ⟨rfl, hbefore⟩)
          rw [htrace]
          exact not_follows (by simp)
        · rw [htrace]
          refine iff_of_true (follows_failed hcompare hrs hfail hnone) ?_
          rintro ⟨-, h⟩
          rw [h] at hbefore
          cases hbefore

/-- A chain that begins with an `in`. -/
theorem follows_in_iff {k : CmpKind} (hk : k = .isIn ∨ k = .notIn) (a b : Expr) (ls : List Link)
    (f : Frame) :
    FollowsPython host (k :: ls.map Prod.fst) (operandTrace host a (k, b) ls f)
      (evalMarked host (chain a (k, b) ls) (f, [])).1 ↔ ¬ Misplaces host a (k, b) ls f := by
  unfold operandTrace
  obtain ⟨K, hK, heq⟩ := @evalMarked_in host k hk 0 1 a b
  have hmis : Misplaces host a (k, b) ls f ↔
      ((steps host ls.length >>= fun _ => opening host k) f).1 = .ok () := by
    rcases hk with rfl | rfl <;> exact Iff.rfl
  rw [hmis, chain, evalMarked_foldl, length_terms, heq]
  simp only [bind_assoc]
  rcases untraced_cases (steps host ls.length) (fun _ => _) f [] with
    ⟨_, f₁, hsteps, hrun⟩ | ⟨hsteps, hnone, ht⟩
  swap
  · refine iff_of_true (follows_of_short hnone ?_ ?_) ?_
    · rw [ht]; rfl
    · rw [ht]; exact Nat.zero_le _
    · intro h
      have hopen := (bind_run_of_none hsteps fun _ => opening host k).1
      rw [h] at hopen
      cases hopen
  rw [hrun, bind_run_of_ok hsteps]
  rcases untraced_cases (opening host k) (fun _ => _) f₁ [] with
    ⟨_, f₂, hopen, hrun⟩ | ⟨hopen, hnone, ht⟩
  swap
  · refine iff_of_true (follows_of_short hnone ?_ ?_) ?_
    · rw [ht]; rfl
    · rw [ht]; exact Nat.zero_le _
    · intro h
      rw [h] at hopen
      cases hopen
  rw [hrun, hopen]
  refine iff_of_false ?_ (not_not_intro rfl)
  obtain ⟨r, t', ht⟩ := trace_operand (i := 1) (e := b) (K := fun v => evalOperand host 0 a >>=
    fun w => K v w >>= fun v => andThen host v (terms 1 b ls))
    (fun v => (instruments_evalMarked host (.operand 0 a)).grows.bind fun w =>
      (hK v w).bind fun v => grows_andThen _ _) f₂ []
  rw [ht]
  exact not_follows (by decide)

end Evaluation

/-! ## Every chain -/

/-- **A chain is evaluated as in Python exactly if no operand is misplaced**, for all
operands, any number of links and every state.  Both front ends build this tree, and the
trace is the one of its evaluation. -/
theorem chain_follows_iff (host : Host) (w : List Tok) (a : Expr)
    (l : CmpKind × List Tok × Expr) (ls : List (CmpKind × List Tok × Expr)) :
    (∀ src lang, Grammar.Derives lang .add w a →
      (∀ x ∈ l :: ls, Grammar.Derives lang .add x.2.1 x.2.2) →
        Grammar.Derives lang .cmp (w ++ linkToks (l :: ls))
          (chain a (linkOf l) (ls.map linkOf)).erase ∧
        (Lex.lex src = .ok (w ++ linkToks (l :: ls)) →
          parse src lang = .ok (program a (linkOf l) (ls.map linkOf)))) ∧
    lowerCompare (a :: (linkOf l :: ls.map linkOf).map Prod.snd)
      (((linkOf l :: ls.map linkOf).map Prod.fst).map astOp) =
        .ok (chain a (linkOf l) (ls.map linkOf)).erase ∧
    ∀ f : Frame,
      (evalMarked host (chain a (linkOf l) (ls.map linkOf)) (f, []) =
        ((eval host (chain a (linkOf l) (ls.map linkOf)).erase f).1,
          (eval host (chain a (linkOf l) (ls.map linkOf)).erase f).2,
          operandTrace host a (linkOf l) (ls.map linkOf) f)) ∧
      (FollowsPython host ((linkOf l :: ls.map linkOf).map Prod.fst)
          (operandTrace host a (linkOf l) (ls.map linkOf) f)
          (eval host (chain a (linkOf l) (ls.map linkOf)).erase f).1 ↔
        ¬ Misplaces host a (linkOf l) (ls.map linkOf) f) := by
  refine ⟨fun src lang ha hl => ⟨derives_chain ha hl, fun hlex => parse_chain hlex ha hl⟩,
    lowerCompare_eq a (linkOf l) (ls.map linkOf), fun f => ?_⟩
  generalize ls.map linkOf = links
  obtain ⟨k, b⟩ := linkOf l
  obtain ⟨t, hrun⟩ := instruments_evalMarked host (chain a (k, b) links) f []
  have heval : (evalMarked host (chain a (k, b) links) (f, [])).1 =
      (eval host (chain a (k, b) links).erase f).1 := by rw [hrun]
  constructor
  · rw [operandTrace, hrun]
  · rw [← heval, List.map_cons]
    cases k with
    | cmp op => exact follows_cmp_iff op a b links f
    | isIn => exact follows_in_iff (Or.inl rfl) a b links f
    | notIn => exact follows_in_iff (Or.inr rfl) a b links f

/-! ### `1 < show(2) < 3` -/

/-- A host with a screen. -/
def screenHost : Host := { emptyHost with display := some fun _ _ => .ok () }

def number (n : Int64) : Expr := .const (.int n)

/-- `< show(2)`. -/
def shown : CmpKind × List Tok × Expr :=
  (.cmp .lt, [.ident "show", .lParen, .int 2, .rParen], .call .show [number 2])

def third : CmpKind × List Tok × Expr := (.cmp .lt, [.int 3], number 3)

/-- A number is a sum of the grammar. -/
theorem derives_number (n : Int64) : Grammar.Derives .python .add [.int n] (number n) :=
  .add_one <| .mul_one <| .unary_one <| .postfix_one <| .literal rfl

/-- So is the call of the example. -/
theorem derives_shown : Grammar.Derives .python .add shown.2.1 shown.2.2 :=
  .add_one <| .mul_one <| .unary_one <| .postfix_one <| .call (List.mem_singleton_self _) <|
    .items_one <| .cond <| .or_one <| .and_one <| .not_one <| .cmp_one <| derives_number 2

/-- The frame in which the chain is evaluated. -/
def startFrame : Frame := initialFrame (program (number 1) (linkOf shown) [linkOf third])
  defaultMaxSteps 4294967295

/-- **The chain shows `2` twice.** -/
theorem chain_shows_twice :
    parse "1 < show(2) < 3" .python = .ok (program (number 1) (linkOf shown) [linkOf third]) ∧
    (runWith screenHost (program (number 1) (linkOf shown) [linkOf third])
      defaultMaxSteps 4294967295).2.events = [.show "2", .show "2"] ∧
    ¬ FollowsPython screenHost [.cmp .lt, .cmp .lt]
      (operandTrace screenHost (number 1) (linkOf shown) [linkOf third] startFrame)
      (eval screenHost (chain (number 1) (linkOf shown) [linkOf third]).erase startFrame).1 := by
  refine ⟨?_, by decide +kernel, fun h => ?_⟩
  · have hlinks : ∀ x ∈ [shown, third], Grammar.Derives .python .add x.2.1 x.2.2 := by
      intro x hx
      rcases List.mem_pair.mp hx with rfl | rfl
      · exact derives_shown
      · exact derives_number 3
    have hlex : Lex.lex "1 < show(2) < 3" = .ok ([.int 1] ++ linkToks [shown, third]) := by
      decide +kernel
    exact parse_chain hlex (derives_number 1) hlinks
  · have horder := h.in_order
    revert horder
    decide +kernel

/-- A first comparison that is false keeps the order. -/
theorem chain_follows_iff_shown :
    FollowsPython screenHost [.cmp .lt, .cmp .lt]
      (operandTrace screenHost (number 3) (linkOf shown) [linkOf third] startFrame)
      (eval screenHost (chain (number 3) (linkOf shown) [linkOf third]).erase startFrame).1 := by
  refine ((chain_follows_iff screenHost [.int 3] (number 3) shown [third]).2.2 startFrame).2.mpr ?_
  rintro ⟨x, y, f', hfirst, htrue, -⟩
  have hvals : (firstOperands screenHost (number 3) (linkOf shown).2
      ([third].map linkOf).length startFrame).1 = .ok (.int 3, .int 2) := rfl
  rw [congrArg Prod.fst hfirst] at hvals
  cases hvals
  revert htrue
  decide +kernel

end Chain
