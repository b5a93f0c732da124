/-
# The grammar

The expression language as a grammar: for each nonterminal (`Sym`) the lists of tokens
that it derives, and the tree of each.  Operators are left-recursive rules, so the trees
associate to the left; a comparison chain is the conjunction of its comparisons.  Names
stand in the trees as they are written; `resolveIn` replaces those of locals by slots.

The names of the builtins, the trees of comparisons and the rule for names are the
grammar's own; `builtinFrom_eq_ok`, `cmpTerm_eq` and `resolve_eq` compare the parser's with
them.  `sound_conditional`: what the parser returns is a tree of the grammar.
-/
import Mathlib.Data.List.Induction
import PySpell.ParseTotal
import PySpell.Lib.GrammarParser

open TokenParser Parse

namespace Grammar

/-! ## Rules -/

/-- The nonterminals. -/
inductive Sym where
  | cond | or | and | not | cmp
  /-- A chain of comparisons, by its last operand. -/
  | chain (last : Expr)
  | add | mul | unary | postfixed | primary
  /-- Expressions with commas between them; the tree is their list. -/
  | items
  /-- What follows an `if` of Rust. -/
  | branches

/-- The token of an operator. -/
def binTok : BinOp → Tok
  | .add => .plus
  | .sub => .minus
  | .mul => .star
  | .div => .slash
  | .rem => .percent

/-- The tokens of a comparison. -/
def cmpToks : CmpKind → List Tok
  | .cmp .eq => [.eqEq]
  | .cmp .ne => [.ne]
  | .cmp .lt => [.lt]
  | .cmp .le => [.le]
  | .cmp .gt => [.gt]
  | .cmp .ge => [.ge]
  | .isIn => [.inKw]
  | .notIn => [.notKw, .inKw]

/-- The token of a literal. -/
def literalTok : Tok → Option Value
  | .int n => some (.int n)
  | .float x => some (.float x)
  | .bool b => some (.bool b)
  | .str s => some (.str s)
  | _ => none

/-- The names under which a function is called; `contains` is a method and has none. -/
def names : Builtin → List String
  | .len => ["len"]
  | .abs => ["abs"]
  | .min => ["min"]
  | .max => ["max"]
  | .sum => ["sum"]
  | .any => ["any"]
  | .all => ["all"]
  | .round => ["round"]
  | .int => ["int"]
  | .float => ["float"]
  | .bool => ["bool"]
  | .contains => []
  | .indexOf => ["index"]
  | .before => ["before"]
  | .first => ["first"]
  | .last => ["last"]
  | .str => ["str"]
  | .jsonGet => ["json_get"]
  | .fetch => ["fetch"]
  | .fetchJson => ["fetch_json"]
  | .show => ["show"]
  | .print => ["print"]
  | .led => ["led"]
  | .flash => ["flash"]
  | .upper => ["upper"]
  | .lower => ["lower"]
  | .reverse => ["reverse"]

/-- The tree of a comparison: `a in b` asks whether `b` contains `a`. -/
def comparison (k : CmpKind) (a b : Expr) : Expr :=
  match k with
  | .cmp op => .cmp op a b
  | .isIn => .call .contains [b, a]
  | .notIn => .unary .not (.call .contains [b, a])

/-- The rules for expressions. -/
inductive Derives (lang : Lang) : Sym → List Tok → Expr → Prop
  | cond {w e} (h : Derives lang .or w e) : Derives lang .cond w e
  /-- `e if t else f`. -/
  | ternary {w e v t u f} (hlang : lang = .python) (he : Derives lang .or w e)
      (ht : Derives lang .or v t) (hf : Derives lang .cond u f) :
      Derives lang .cond (w ++ .ifKw :: (v ++ .elseKw :: u)) (.ite t e f)
  | or_one {w e} (h : Derives lang .and w e) : Derives lang .or w e
  | or_more {w a t v b} (ht : t = .orKw ∨ t = .orOr) (ha : Derives lang .or w a)
      (hb : Derives lang .and v b) : Derives lang .or (w ++ t :: v) (.bool .or a b)
  | and_one {w e} (h : Derives lang .not w e) : Derives lang .and w e
  | and_more {w a t v b} (ht : t = .andKw ∨ t = .andAnd) (ha : Derives lang .and w a)
      (hb : Derives lang .not v b) : Derives lang .and (w ++ t :: v) (.bool .and a b)
  | not_one {w e} (h : Derives lang .cmp w e) : Derives lang .not w e
  | not_more {t w e} (ht : t = .notKw ∨ t = .bang) (h : Derives lang .not w e) :
      Derives lang .not (t :: w) (.unary .not e)
  | cmp_one {w e} (h : Derives lang .add w e) : Derives lang .cmp w e
  | cmp_chain {w e last} (h : Derives lang (.chain last) w e) : Derives lang .cmp w e
  /-- `a < b`. -/
  | chain_one {w a k v b} (ha : Derives lang .add w a) (hb : Derives lang .add v b) :
      Derives lang (.chain b) (w ++ (cmpToks k ++ v)) (comparison k a b)
  /-- `… b < c` is `… b and b < c`. -/
  | chain_more {w e b k v c} (he : Derives lang (.chain b) w e) (hc : Derives lang .add v c) :
      Derives lang (.chain c) (w ++ (cmpToks k ++ v)) (.bool .and e (comparison k b c))
  | add_one {w e} (h : Derives lang .mul w e) : Derives lang .add w e
  | add_more {w a op v b} (hop : op = .add ∨ op = .sub) (ha : Derives lang .add w a)
      (hb : Derives lang .mul v b) : Derives lang .add (w ++ binTok op :: v) (.bin op a b)
  | mul_one {w e} (h : Derives lang .unary w e) : Derives lang .mul w e
  | mul_more {w a op v b} (hop : op = .mul ∨ op = .div ∨ op = .rem) (ha : Derives lang .mul w a)
      (hb : Derives lang .unary v b) : Derives lang .mul (w ++ binTok op :: v) (.bin op a b)
  | unary_one {w e} (h : Derives lang .postfixed w e) : Derives lang .unary w e
  | neg {w e} (h : Derives lang .unary w e) : Derives lang .unary (.minus :: w) (.unary .neg e)
  | postfix_one {w e} (h : Derives lang .primary w e) : Derives lang .postfixed w e
  /-- `e[i]`. -/
  | index {w e v i} (he : Derives lang .postfixed w e) (hi : Derives lang .cond v i) :
      Derives lang .postfixed (w ++ .lBracket :: (v ++ [.rBracket])) (.index e i)
  /-- `e.contains(a)`. -/
  | contains {w e v a} (he : Derives lang .postfixed w e) (ha : Derives lang .cond v a) :
      Derives lang .postfixed (w ++ .dot :: .ident "contains" :: .lParen :: (v ++ [.rParen]))
        (.call .contains [e, a])
  | literal {t v} (ht : literalTok t = some v) : Derives lang .primary [t] (.const v)
  | paren {w e} (h : Derives lang .cond w e) :
      Derives lang .primary (.lParen :: (w ++ [.rParen])) e
  | list_nil : Derives lang .primary [.lBracket, .rBracket] (.list [])
  | list {w es} (h : Derives lang .items w (.list es)) :
      Derives lang .primary (.lBracket :: (w ++ [.rBracket])) (.list es)
  /-- A comma may stand before the closing bracket. -/
  | list_comma {w es} (h : Derives lang .items w (.list es)) :
      Derives lang .primary (.lBracket :: (w ++ [.comma, .rBracket])) (.list es)
  | name {x} : Derives lang .primary [.ident x] (.var x)
  | call_nil {x b} (hb : x ∈ names b) :
      Derives lang .primary [.ident x, .lParen, .rParen] (.call b [])
  | call {x b w es} (hb : x ∈ names b) (h : Derives lang .items w (.list es)) :
      Derives lang .primary (.ident x :: .lParen :: (w ++ [.rParen])) (.call b es)
  | ite {w e} (hlang : lang = .rust) (h : Derives lang .branches w e) :
      Derives lang .primary (.ifKw :: w) e
  | items_one {w e} (h : Derives lang .cond w e) : Derives lang .items w (.list [e])
  | items_more {w e v es} (h : Derives lang .cond w e) (hs : Derives lang .items v (.list es)) :
      Derives lang .items (w ++ .comma :: v) (.list (e :: es))
  /-- `c { t } else { f }`. -/
  | branches_else {w c v t u f} (hc : Derives lang .or w c) (ht : Derives lang .cond v t)
      (hf : Derives lang .cond u f) :
      Derives lang .branches
        (w ++ .lBrace :: (v ++ .rBrace :: .elseKw :: .lBrace :: (u ++ [.rBrace]))) (.ite c t f)
  /-- `c { t } else if …`. -/
  | branches_if {w c v t u f} (hc : Derives lang .or w c) (ht : Derives lang .cond v t)
      (hf : Derives lang .branches u f) :
      Derives lang .branches (w ++ .lBrace :: (v ++ .rBrace :: .elseKw :: .ifKw :: u)) (.ite c t f)

/-- The rules for programs: `let`s, and an expression that a semicolon may follow. -/
inductive Derivation (lang : Lang) : List Tok → List (String × Expr) → Expr → Prop
  | ret {w e} (h : Derives lang .cond w e) : Derivation lang w [] e
  | semi {w e} (h : Derives lang .cond w e) : Derivation lang (w ++ [.semi]) [] e
  /-- `let x = e; …`. -/
  | letIn {x w e v bs r} (hlang : lang = .rust) (h : Derives lang .cond w e)
      (hrest : Derivation lang v bs r) :
      Derivation lang (.letKw :: .ident x :: .assign :: (w ++ .semi :: v)) ((x, e) :: bs) r

/-! ## Names -/

/-- A name is the local that was bound last under it, or a free name. -/
def nameTree (locals : List (String × UInt16)) (name : String) : Expr :=
  match (locals.filter fun l => l.1 = name).getLast? with
  | some l => .local l.2
  | none => .var name

mutual

/-- The locals of a tree get their slots. -/
def resolveIn (locals : List (String × UInt16)) : Expr → Expr
  | .const v => .const v
  | .var name => nameTree locals name
  | .local slot => .local slot
  | .bin op a b => .bin op (resolveIn locals a) (resolveIn locals b)
  | .cmp op a b => .cmp op (resolveIn locals a) (resolveIn locals b)
  | .bool op a b => .bool op (resolveIn locals a) (resolveIn locals b)
  | .unary op a => .unary op (resolveIn locals a)
  | .index l i => .index (resolveIn locals l) (resolveIn locals i)
  | .ite c t e => .ite (resolveIn locals c) (resolveIn locals t) (resolveIn locals e)
  | .call b args => .call b (resolveAll locals args)
  | .list items => .list (resolveAll locals items)

def resolveAll (locals : List (String × UInt16)) : List Expr → List Expr
  | [] => []
  | e :: es => resolveIn locals e :: resolveAll locals es

end

/-- Names are replaced inside a comparison, whose tree keeps its shape. -/
theorem resolveIn_comparison (locals : List (String × UInt16)) (k : CmpKind) (a b : Expr) :
    resolveIn locals (comparison k a b) =
      comparison k (resolveIn locals a) (resolveIn locals b) := by
  cases k <;> rfl

/-! ## The parser's tables -/

/-- **The parser knows the functions of the language**, by the same names. -/
theorem builtinFrom_eq_ok {x : String} {b : Builtin} : builtinFrom x = .ok b ↔ x ∈ names b := by
  constructor
  · intro h
    have htable : ∀ p ∈ builtinTable, p.1 ∈ names p.2 := by decide
    unfold builtinFrom at h
    split at h
    · next b' hlookup =>
      obtain rfl := Outcome.ok.inj h
      obtain ⟨before, after, heq, -⟩ := List.lookup_eq_some_iff.mp hlookup
      have hmem : (x, b') ∈ builtinTable := by
        rw [heq]
        exact List.mem_append_right _ List.mem_cons_self
      exact htable _ hmem
    · cases h
  · intro h
    cases b with
    | contains => exact absurd h List.not_mem_nil
    | _ =>
      obtain rfl := List.mem_singleton.mp h
      rfl

/-- **The parser compares as the language does.** -/
theorem cmpTerm_eq (k : CmpKind) (a b : Expr) : cmpTerm k a b = comparison k a b := by
  cases k <;> rfl

/-- **The parser resolves names as the language does.** -/
theorem resolve_eq (locals : List (String × UInt16)) (name : String) :
    resolve locals name = nameTree locals name := by
  have hlookup : locals.reverse.lookup name =
      ((locals.filter fun l => l.1 = name).getLast?).map Prod.snd := by
    induction locals using List.reverseRecOn with
    | nil => rfl
    | append_singleton locals l ih =>
      rw [List.reverse_append, List.reverse_singleton, List.singleton_append, List.lookup_cons,
        List.filter_append]
      by_cases hl : l.1 = name
      · simp [hl]
      · have hne : (name == l.1) = false := beq_false_of_ne fun h => hl h.symm
        simp [hl, hne, ih]
  unfold resolve nameTree
  rw [hlookup]
  cases (locals.filter fun l => l.1 = name).getLast? <;> rfl

/-! ## Soundness -/

/-- The grammar gives `w` a tree that becomes `e'`. -/
def Given (lang : Lang) (locals : List (String × UInt16)) (s : Sym) (w : List Tok) (e' : Expr) :
    Prop :=
  ∃ e, Derives lang s w e ∧ resolveIn locals e = e'

/-- The grammar gives `w` items that become `es'`. -/
def GivenAll (lang : Lang) (locals : List (String × UInt16)) (w : List Tok) (es' : List Expr) :
    Prop :=
  ∃ es, Derives lang .items w (.list es) ∧ resolveAll locals es = es'

section Levels

variable {lang : Lang} {locals : List (String × UInt16)} {cond orE : P Expr}

/-- The loop over items reads items of the grammar, with one comma behind them where the place
allows it. -/
theorem sound_items {last : Option Tok → Bool} (hc : Sound cond (Given lang locals .cond)) :
    Sound (commaList .comma last cond) fun w es =>
      GivenAll lang locals w es ∨
        ∃ v, w = v ++ [.comma] ∧ GivenAll lang locals v es ∧ ∃ o, last o = true := by
  apply Sound.commaList hc
  · rintro w _ ⟨e, he, rfl⟩
    exact ⟨[e], .items_one he, rfl⟩
  · rintro w _ v _ ⟨e, he, rfl⟩ ⟨es, hes, rfl⟩
    exact ⟨e :: es, .items_more he hes, rfl⟩

/-- A list up to its bracket is empty, or what the loop over items reads. -/
theorem sound_itemsUntil {close : Tok} {items : P (List Expr)} {H : List Tok → List Expr → Prop}
    (h : Sound items H) : Sound (itemsUntil close items) fun w es => w = [] ∧ es = [] ∨ H w es := by
  intro ts es r hp
  rw [itemsUntil, bind_run, peek, Outcome.ok_bind] at hp
  dsimp only at hp
  split at hp
  · obtain ⟨rfl, rfl⟩ := Prod.mk.inj (Outcome.ok.inj hp)
    exact ⟨[], rfl, Or.inl ⟨rfl, rfl⟩⟩
  · obtain ⟨w, hw, hh⟩ := h ts es r hp
    exact ⟨w, hw, Or.inr hh⟩

/-- An `if` chain of Rust is read as the grammar has it: induction on the fuel, which is spent at
each `else if`. -/
theorem sound_branches (hc : Sound cond (Given lang locals .cond))
    (ho : Sound orE (Given lang locals .or)) :
    ∀ fuel, Sound (rustIf cond orE fuel) (Given lang locals .branches) := by
  intro fuel
  induction fuel with
  | zero => exact fun ts e r hp => by cases hp
  | succ fuel ih =>
    refine ho.bind fun w _ hw => Sound.expect_bind ?_
    obtain ⟨c, hcond, rfl⟩ := hw
    refine hc.bind fun v _ hv => Sound.expect_bind (Sound.expect_bind ?_)
    obtain ⟨t, hthen, rfl⟩ := hv
    -- the part after `else`
    have helse : Sound (elsePart cond (rustIf cond orE fuel)) fun u f' =>
        Given lang locals .branches (w ++ .lBrace :: (v ++ .rBrace :: .elseKw :: u))
          (.ite (resolveIn locals c) (resolveIn locals t) f') := by
      refine Sound.ifPeek (ih.mono ?_) (Sound.expect_bind (hc.bind fun u _ hu =>
        Sound.expect_bind (Sound.pure ?_)))
      · rintro u _ ⟨f, hf, rfl⟩
        exact ⟨_, .branches_if hcond hthen hf, rfl⟩
      · obtain ⟨f, hf, rfl⟩ := hu
        exact ⟨_, .branches_else hcond hthen hf, rfl⟩
    refine helse.bind fun u f' hf => Sound.pure ?_
    rwa [List.append_nil]

/-- A name before a parenthesis is a call of a builtin, and a name otherwise. -/
theorem sound_callOrName (hc : Sound cond (Given lang locals .cond)) (name : String) :
    Sound (callOrName locals cond name) fun w e =>
      Given lang locals .primary (.ident name :: w) e := by
  refine Sound.ifPeek ?_ (Sound.pure ⟨_, .name, (resolve_eq locals name).symm⟩)
  refine (sound_itemsUntil (sound_items hc)).bind fun w es hes => Sound.expect_bind ?_
  refine Sound.lift_bind fun b hb => Sound.pure ?_
  rcases hes with ⟨rfl, rfl⟩ | ⟨es, hes, rfl⟩ | ⟨v, -, -, o, ho⟩
  · exact ⟨_, .call_nil (builtinFrom_eq_ok.mp hb), rfl⟩
  · exact ⟨_, .call (builtinFrom_eq_ok.mp hb) hes, rfl⟩
  · cases ho

/-- A primary, by its first token: that decides between the rules of the grammar. -/
theorem sound_primary (hc : Sound cond (Given lang locals .cond))
    (ho : Sound orE (Given lang locals .or)) :
    Sound (primary lang locals cond orE) (Given lang locals .primary) := by
  refine Sound.advance_bind (Sound.fail _) fun t => ?_
  cases t with
  | int n => exact Sound.pure ⟨_, .literal rfl, rfl⟩
  | float x => exact Sound.pure ⟨_, .literal rfl, rfl⟩
  | bool b => exact Sound.pure ⟨_, .literal rfl, rfl⟩
  | str s => exact Sound.pure ⟨_, .literal rfl, rfl⟩
  | lParen =>
    refine hc.bind fun w _ hw => Sound.expect_bind (Sound.pure ?_)
    obtain ⟨e, he, rfl⟩ := hw
    exact ⟨e, .paren he, rfl⟩
  | lBracket =>
    refine (sound_itemsUntil (sound_items hc)).bind fun w es hes => Sound.expect_bind
      (Sound.pure ?_)
    rcases hes with ⟨rfl, rfl⟩ | ⟨es, hes, rfl⟩ | ⟨v, rfl, ⟨es, hes, rfl⟩, -⟩
    · exact ⟨_, .list_nil, rfl⟩
    · exact ⟨_, .list hes, rfl⟩
    · refine ⟨.list es, ?_, rfl⟩
      rw [List.append_assoc]
      exact .list_comma hes
  | ifKw =>
    cases lang with
    | rust =>
      intro ts e r hp
      obtain ⟨w, hw, e', he', rfl⟩ := sound_branches hc ho (ts.length + 1) ts e r hp
      exact ⟨w, hw, e', .ite rfl he', rfl⟩
    | python => exact Sound.fail _
  | ident name => exact sound_callOrName hc name
  | _ => exact Sound.fail _

/-- The loop over indices and method calls is the left recursion of the grammar. -/
theorem sound_postfixExpr (hc : Sound cond (Given lang locals .cond))
    (ho : Sound orE (Given lang locals .or)) :
    Sound (postfixExpr lang locals cond orE) (Given lang locals .postfixed) := by
  refine (sound_primary hc ho).suffixed ?_ fun t p w _ hop hw => ?_
  · rintro w _ ⟨e, he, rfl⟩
    exact ⟨e, .postfix_one he, rfl⟩
  obtain ⟨e, he, rfl⟩ := hw
  cases t with
  | lBracket =>
    obtain rfl : indexSuffix cond = p := Option.some_inj.mp hop
    refine hc.bind fun v _ hv => Sound.expect_bind (Sound.pure ?_)
    obtain ⟨i, hi, rfl⟩ := hv
    exact ⟨_, .index he hi, rfl⟩
  | dot =>
    obtain rfl : methodSuffix cond = p := Option.some_inj.mp hop
    refine Sound.advance_bind (Sound.fail _) fun t => ?_
    cases t with
    | ident method =>
      dsimp only
      by_cases hm : method ≠ "contains"
      · rw [if_pos hm]
        exact Sound.fail _
      · rw [if_neg hm]
        rw [not_not] at hm
        subst hm
        refine Sound.expect_bind (hc.bind fun v _ hv => Sound.expect_bind (Sound.pure ?_))
        obtain ⟨a, ha, rfl⟩ := hv
        exact ⟨_, .contains he ha, rfl⟩
    | _ => exact Sound.fail _
  | _ => cases hop

/-- Signs are rules of the unary level, from the inside out. -/
theorem sound_unary (hc : Sound cond (Given lang locals .cond))
    (ho : Sound orE (Given lang locals .or)) :
    Sound (unary lang locals cond orE) (Given lang locals .unary) := by
  refine (sound_postfixExpr hc ho).prefixed ?_ fun t f w _ hop hw => ?_
  · rintro w _ ⟨e, he, rfl⟩
    exact ⟨e, .unary_one he, rfl⟩
  obtain ⟨e, he, rfl⟩ := hw
  cases t with
  | minus =>
    obtain rfl : Expr.unary .neg = f := Option.some_inj.mp hop
    exact ⟨_, .neg he, rfl⟩
  | _ => cases hop

/-- The loop over factors is the left recursion of the products. -/
theorem sound_mul (hc : Sound cond (Given lang locals .cond))
    (ho : Sound orE (Given lang locals .or)) :
    Sound (mulExpr lang locals cond orE) (Given lang locals .mul) := by
  refine (sound_unary hc ho).leftAssoc ?_ ?_
  · rintro w _ ⟨e, he, rfl⟩
    exact ⟨e, .mul_one he, rfl⟩
  rintro t f w _ v _ hop ⟨a, ha, rfl⟩ ⟨b, hb, rfl⟩
  cases t with
  | star =>
    obtain rfl : Expr.bin .mul = f := Option.some_inj.mp hop
    exact ⟨_, .mul_more (Or.inl (Eq.refl BinOp.mul)) ha hb, rfl⟩
  | slash =>
    obtain rfl : Expr.bin .div = f := Option.some_inj.mp hop
    exact ⟨_, .mul_more (Or.inr (Or.inl (Eq.refl BinOp.div))) ha hb, rfl⟩
  | percent =>
    obtain rfl : Expr.bin .rem = f := Option.some_inj.mp hop
    exact ⟨_, .mul_more (Or.inr (Or.inr (Eq.refl BinOp.rem))) ha hb, rfl⟩
  | _ => cases hop

/-- The loop over summands is the left recursion of the sums. -/
theorem sound_add (hc : Sound cond (Given lang locals .cond))
    (ho : Sound orE (Given lang locals .or)) :
    Sound (addExpr lang locals cond orE) (Given lang locals .add) := by
  refine (sound_mul hc ho).leftAssoc ?_ ?_
  · rintro w _ ⟨e, he, rfl⟩
    exact ⟨e, .add_one he, rfl⟩
  rintro t f w _ v _ hop ⟨a, ha, rfl⟩ ⟨b, hb, rfl⟩
  cases t with
  | plus =>
    obtain rfl : Expr.bin .add = f := Option.some_inj.mp hop
    exact ⟨_, .add_more (Or.inl (Eq.refl BinOp.add)) ha hb, rfl⟩
  | minus =>
    obtain rfl : Expr.bin .sub = f := Option.some_inj.mp hop
    exact ⟨_, .add_more (Or.inr (Eq.refl BinOp.sub)) ha hb, rfl⟩
  | _ => cases hop

/-! ### Chains -/

/-- What is taken for a comparison is spelled as the grammar spells it. -/
theorem cmpKind_eq_some {ts ts' : List Tok} {k : CmpKind} (h : cmpKind ts = .ok (some k, ts')) :
    ts = cmpToks k ++ ts' := by
  unfold cmpKind at h
  split at h
  all_goals
    cases h
    try rfl

/-- One more comparison adds its term. -/
theorem cmpTerms_append {b c : Expr} {k : CmpKind} {operands : List Expr} :
    ∀ {ops : List CmpKind} {i : ℕ} {terms : List Expr}, operands.length = i + ops.length + 1 →
      operands.getLast? = some b → cmpTerms operands i ops = .ok terms →
      cmpTerms (operands ++ [c]) i (ops ++ [k]) = .ok (terms ++ [cmpTerm k b c]) := by
  intro ops
  induction ops with
  | nil =>
    intro i terms hlen hlast hterms
    obtain rfl : ([] : List Expr) = terms := Outcome.ok.inj hterms
    rw [List.length_nil] at hlen
    have hb : (operands ++ [c])[i]? = some b := by
      rw [List.getElem?_append_left (by omega), ← hlast, List.getLast?_eq_getElem?]
      congr 1
      omega
    have hc : (operands ++ [c])[i + 1]? = some c := by
      rw [List.getElem?_append_right (by omega), show i + 1 - operands.length = 0 by omega]
      rfl
    rw [List.nil_append, cmpTerms, hb, hc]
    rfl
  | cons k' ks ih =>
    intro i terms hlen hlast hterms
    rw [List.length_cons] at hlen
    rw [List.cons_append, cmpTerms]
    rw [cmpTerms] at hterms
    rw [List.getElem?_append_left (by omega), List.getElem?_append_left (by omega)]
    obtain ⟨lhs, hlhs, hterms⟩ := Outcome.bind_eq_ok.mp hterms
    obtain ⟨rhs, hrhs, hterms⟩ := Outcome.bind_eq_ok.mp hterms
    obtain ⟨rest, hrest, hterms⟩ := Outcome.bind_eq_ok.mp hterms
    obtain rfl := Outcome.ok.inj hterms
    rw [hlhs, hrhs, ih (by omega) hlast hrest]
    rfl

/-- One more comparison joins the conjunction. -/
theorem cmpChain_append {b c e : Expr} {k : CmpKind} {operands : List Expr} {ops : List CmpKind}
    (hlen : operands.length = ops.length + 1) (hlast : operands.getLast? = some b)
    (hops : ops ≠ []) (h : cmpChain operands ops = .ok e) :
    cmpChain (operands ++ [c]) (ops ++ [k]) = .ok (.bool .and e (cmpTerm k b c)) := by
  cases ops with
  | nil => exact absurd rfl hops
  | cons k' ks =>
    obtain ⟨terms, hterms, hconj⟩ := Outcome.bind_eq_ok.mp h
    have hmore := cmpTerms_append (c := c) (k := k) (i := 0) (by omega) hlast hterms
    cases terms with
    | nil => cases hconj
    | cons term terms =>
      obtain rfl := Outcome.ok.inj hconj
      rw [List.cons_append] at hmore ⊢
      rw [cmpChain]
      rw [hmore, Outcome.ok_bind, List.cons_append, conjunction, List.foldl_append]
      rfl

/-- Operands and comparisons that were read. -/
inductive Chain (lang : Lang) (locals : List (String × UInt16)) :
    List Tok → List Expr → List CmpKind → Prop
  | one {w a} (h : Derives lang .add w a) : Chain lang locals w [resolveIn locals a] []
  | more {w e b operands ops} (h : Derives lang (.chain b) w e) (hops : ops ≠ [])
      (hlen : operands.length = ops.length + 1)
      (hlast : operands.getLast? = some (resolveIn locals b))
      (heq : cmpChain operands ops = .ok (resolveIn locals e)) : Chain lang locals w operands ops

/-- A further operand, read behind a comparison, is a further step of the chain. -/
theorem Chain.next {w v : List Tok} {c : Expr} {k : CmpKind} {operands : List Expr}
    {ops : List CmpKind} (h : Chain lang locals w operands ops) (hc : Derives lang .add v c) :
    Chain lang locals (w ++ (cmpToks k ++ v)) (operands ++ [resolveIn locals c]) (ops ++ [k]) := by
  cases h with
  | one ha =>
    refine .more (.chain_one ha hc) (by simp) rfl rfl ?_
    rw [resolveIn_comparison, ← cmpTerm_eq]
    rfl
  | more he hops hlen hlast heq =>
    refine .more (.chain_more he hc) (by simp) (by simp [hlen]) (by simp) ?_
    rw [cmpChain_append hlen hlast hops heq, resolveIn, resolveIn_comparison, cmpTerm_eq]

/-- **The loop over comparisons** keeps its operands in step with the chain of the grammar; the
invariant is `Chain`, over the tokens that were read. -/
theorem sound_cmpLoop {operand : P Expr} (h : Sound operand (Given lang locals .add)) :
    ∀ (fuel : ℕ) {w : List Tok} {operands : List Expr} {ops : List CmpKind},
      Chain lang locals w operands ops →
      Sound (cmpLoop operand fuel operands ops) fun v out =>
        Chain lang locals (w ++ v) out.1 out.2 := by
  intro fuel
  induction fuel with
  | zero => exact fun _ ts out r hp => by cases hp
  | succ fuel ih =>
    intro w operands ops hchain ts out r hp
    obtain ⟨⟨kind, r₁⟩, hkind, hrest⟩ := Outcome.bind_eq_ok.mp hp
    cases kind with
    | none =>
      obtain rfl : ts = r₁ := by
        rcases cmpKind_cases ts with hk | ⟨k, ts', hk, -⟩
        · rw [hk] at hkind
          exact (Prod.mk.inj (Outcome.ok.inj hkind)).2
        · rw [hk] at hkind
          cases (Prod.mk.inj (Outcome.ok.inj hkind)).1
      obtain ⟨rfl, rfl⟩ := Prod.mk.inj (Outcome.ok.inj hrest)
      refine ⟨[], rfl, ?_⟩
      dsimp only
      rwa [List.append_nil]
    | some k =>
      obtain rfl := cmpKind_eq_some hkind
      have hsound : Sound (operand >>= fun e =>
          cmpLoop operand fuel (operands ++ [e]) (ops ++ [k])) fun v out =>
          Chain lang locals (w ++ (cmpToks k ++ v)) out.1 out.2 := by
        refine h.bind fun v _ hv => ?_
        obtain ⟨c, hc, rfl⟩ := hv
        refine (ih (hchain.next hc)).mono fun v' out' hout => ?_
        rwa [List.append_assoc, List.append_assoc] at hout
      obtain ⟨v, rfl, hv⟩ := hsound r₁ out r hrest
      exact ⟨cmpToks k ++ v, (List.append_assoc _ _ _).symm, hv⟩

/-- A chain is folded into the conjunction that the grammar gives it. -/
theorem sound_cmp (hc : Sound cond (Given lang locals .cond))
    (ho : Sound orE (Given lang locals .or)) :
    Sound (cmpExpr lang locals cond orE) (Given lang locals .cmp) := by
  intro ts e r hp
  have hadd := sound_add hc ho
  obtain ⟨⟨first, r₁⟩, hfirst, hrest⟩ := Outcome.bind_eq_ok.mp hp
  obtain ⟨w, rfl, a, ha, rfl⟩ := hadd _ first r₁ hfirst
  obtain ⟨⟨⟨operands, ops⟩, r₂⟩, hout, hlift⟩ := Outcome.bind_eq_ok.mp hrest
  obtain ⟨v, rfl, hchain⟩ := sound_cmpLoop hadd _ (Chain.one ha) r₁ (operands, ops) r₂ hout
  obtain ⟨e', he', hpure⟩ := Outcome.bind_eq_ok.mp hlift
  obtain ⟨rfl, rfl⟩ := Prod.mk.inj (Outcome.ok.inj hpure)
  refine ⟨w ++ v, (List.append_assoc _ _ _).symm, ?_⟩
  cases hchain with
  | one ha => exact ⟨_, .cmp_one ha, Outcome.ok.inj he'⟩
  | more h hops hlen hlast heq =>
    exact ⟨_, .cmp_chain h, Outcome.ok.inj (heq.symm.trans he')⟩

/-! ### The upper levels -/

/-- Negations are rules of the `not` level, from the inside out. -/
theorem sound_not (hc : Sound cond (Given lang locals .cond))
    (ho : Sound orE (Given lang locals .or)) :
    Sound (notExpr lang locals cond orE) (Given lang locals .not) := by
  refine (sound_cmp hc ho).prefixed ?_ fun t f w _ hop hw => ?_
  · rintro w _ ⟨e, he, rfl⟩
    exact ⟨e, .not_one he, rfl⟩
  obtain ⟨e, he, rfl⟩ := hw
  cases t with
  | notKw =>
    obtain rfl : Expr.unary .not = f := Option.some_inj.mp hop
    exact ⟨_, .not_more (Or.inl rfl) he, rfl⟩
  | bang =>
    obtain rfl : Expr.unary .not = f := Option.some_inj.mp hop
    exact ⟨_, .not_more (Or.inr rfl) he, rfl⟩
  | _ => cases hop

/-- The loop over `and` is the left recursion of the conjunctions. -/
theorem sound_and (hc : Sound cond (Given lang locals .cond))
    (ho : Sound orE (Given lang locals .or)) :
    Sound (andExpr lang locals cond orE) (Given lang locals .and) := by
  refine (sound_not hc ho).leftAssoc ?_ ?_
  · rintro w _ ⟨e, he, rfl⟩
    exact ⟨e, .and_one he, rfl⟩
  rintro t f w _ v _ hop ⟨a, ha, rfl⟩ ⟨b, hb, rfl⟩
  cases t with
  | andKw =>
    obtain rfl : Expr.bool .and = f := Option.some_inj.mp hop
    exact ⟨_, .and_more (Or.inl rfl) ha hb, rfl⟩
  | andAnd =>
    obtain rfl : Expr.bool .and = f := Option.some_inj.mp hop
    exact ⟨_, .and_more (Or.inr rfl) ha hb, rfl⟩
  | _ => cases hop

/-- The loop over `or` is the left recursion of the disjunctions. -/
theorem sound_or (hc : Sound cond (Given lang locals .cond))
    (ho : Sound orE (Given lang locals .or)) :
    Sound (orLevel lang locals cond orE) (Given lang locals .or) := by
  refine (sound_and hc ho).leftAssoc ?_ ?_
  · rintro w _ ⟨e, he, rfl⟩
    exact ⟨e, .or_one he, rfl⟩
  rintro t f w _ v _ hop ⟨a, ha, rfl⟩ ⟨b, hb, rfl⟩
  cases t with
  | orKw =>
    obtain rfl : Expr.bool .or = f := Option.some_inj.mp hop
    exact ⟨_, .or_more (Or.inl rfl) ha hb, rfl⟩
  | orOr =>
    obtain rfl : Expr.bool .or = f := Option.some_inj.mp hop
    exact ⟨_, .or_more (Or.inr rfl) ha hb, rfl⟩
  | _ => cases hop

/-- Conditionals: only Python has them at this level. -/
theorem sound_cond (hc : Sound cond (Given lang locals .cond))
    (ho : Sound orE (Given lang locals .or)) :
    Sound (condLevel lang cond orE) (Given lang locals .cond) := by
  refine ho.bind fun w _ hw => ?_
  obtain ⟨e, he, rfl⟩ := hw
  have hone : Sound (pure (resolveIn locals e) : P Expr) fun v e' =>
      Given lang locals .cond (w ++ v) e' := by
    refine Sound.pure ?_
    rw [List.append_nil]
    exact ⟨e, .cond he, rfl⟩
  cases lang with
  | rust =>
    intro ts e' r hp
    exact hone ts e' r hp
  | python =>
    have hif : Sound (do
        if (← peek) = some .ifKw then
          let _ ← advance
          pythonElse cond orE (resolveIn locals e)
        else pure (resolveIn locals e) : P Expr) fun v e' =>
        Given .python locals .cond (w ++ v) e' := by
      refine Sound.ifPeek (ho.bind fun v _ hv => Sound.expect_bind (hc.bind fun u _ hu =>
        Sound.pure ?_)) hone
      obtain ⟨t, ht, rfl⟩ := hv
      obtain ⟨f, hf, rfl⟩ := hu
      rw [List.append_nil]
      exact ⟨_, .ternary rfl he ht hf, rfl⟩
    intro ts e' r hp
    refine hif ts e' r ?_
    simpa using hp

end Levels

/-- **What the parser returns is a tree of the grammar**, by induction on the nesting
depth. -/
theorem sound_conditional (lang : Lang) (locals : List (String × UInt16)) : ∀ n,
    Sound (conditional lang locals n) (Given lang locals .cond) ∧
      Sound (orExpr lang locals n) (Given lang locals .or) := by
  intro n
  induction n with
  | zero =>
    constructor
    · intro ts e r hp
      cases hp
    · intro ts e r hp
      cases hp
  | succ n ih => exact ⟨sound_cond ih.1 ih.2, sound_or ih.1 ih.2⟩

/-- **Every expression that is read has a derivation**, with the tree that was built. -/
theorem sound_expr (lang : Lang) (locals : List (String × UInt16)) :
    Sound (expr lang locals) (Given lang locals .cond) := fun ts =>
  (sound_conditional lang locals _).1 ts

end Grammar
