/-
# Programs of the grammar

`Parser::program` against the rules for programs.  A list of tokens has at most one
derivation (`Derivation.unique`), because the parser is a function that reads every phrase
as its tree, and without locals it leaves the names of a tree as they are.

The parser returns the bindings and the result of that derivation (`compiled`) as long as
the slots last.  On a derivation with 65536 bindings or more it panics, so it accepts
exactly the rest of the grammar (`accepts_iff`).
-/
import PySpell.GrammarComplete

open TokenParser Parse

namespace Grammar

/-! ## Uniqueness -/

mutual

/-- Without locals every name stays as it is. -/
theorem resolveIn_nil : ∀ e : Expr, resolveIn [] e = e
  | .const _ | .var _ | .local _ => rfl
  | .bin _ a b | .cmp _ a b | .bool _ a b => by
    rw [resolveIn, resolveIn_nil a, resolveIn_nil b]
  | .unary _ a => by rw [resolveIn, resolveIn_nil a]
  | .index l i => by rw [resolveIn, resolveIn_nil l, resolveIn_nil i]
  | .ite c t e => by rw [resolveIn, resolveIn_nil c, resolveIn_nil t, resolveIn_nil e]
  | .call _ args => by rw [resolveIn, resolveAll_nil args]
  | .list items => by rw [resolveIn, resolveAll_nil items]

/-- Without bindings every name stays as it is. -/
theorem resolveAll_nil : ∀ es : List Expr, resolveAll [] es = es
  | [] => rfl
  | e :: es => by rw [resolveAll, resolveIn_nil e, resolveAll_nil es]

end

/-- **An expression has one tree**, and where it ends is determined by what follows. -/
theorem Derives.unique {lang : Lang} {w w' r r' : List Tok} {e e' : Expr}
    (h : Derives lang .cond w e) (h' : Derives lang .cond w' e') (hr : Stops 7 r)
    (hr' : Stops 7 r') (heq : w ++ r = w' ++ r') : e = e' ∧ r = r' := by
  have hread := reads_expr h [] r hr
  have hread' := reads_expr h' [] r' hr'
  rw [heq, hread', resolveIn_nil, resolveIn_nil] at hread
  obtain ⟨he, hrest⟩ := Prod.mk.inj (Outcome.ok.inj hread)
  exact ⟨he.symm, hrest.symm⟩

/-- An expression does not begin with a `let`. -/
theorem Derives.ne_let {lang : Lang} {w v : List Tok} {e : Expr}
    (h : Derives lang .cond w e) : (w ++ v).head? ≠ some .letKw := by
  obtain ⟨t, u, rfl, ht⟩ := h.head
  intro hhead
  obtain rfl := Option.some_inj.mp hhead
  exact absurd ht (by decide)

/-- A derivation by its first rule. -/
theorem Derivation.inv {lang : Lang} {ts : List Tok} {bs : List (String × Expr)} {r : Expr}
    (h : Derivation lang ts bs r) :
    (bs = [] ∧ ∃ w v, ts = w ++ v ∧ Derives lang .cond w r ∧ (v = [] ∨ v = [.semi])) ∨
    ∃ x w e v bs', lang = .rust ∧ bs = (x, e) :: bs' ∧
      ts = .letKw :: .ident x :: .assign :: (w ++ .semi :: v) ∧
      Derives lang .cond w e ∧ Derivation lang v bs' r := by
  cases h with
  | ret h => exact Or.inl ⟨rfl, _, [], (List.append_nil _).symm, h, Or.inl rfl⟩
  | semi h => exact Or.inl ⟨rfl, _, _, rfl, h, Or.inr rfl⟩
  | letIn hlang h hrest => exact Or.inr ⟨_, _, _, _, _, hlang, rfl, rfl, h, hrest⟩

/-- Nothing is read behind the last expression but a semicolon, which ends it. -/
theorem stops_end {v : List Tok} (h : v = [] ∨ v = [.semi]) : Stops 7 v := by
  rcases h with rfl | rfl
  · exact stops_nil 7
  · exact stops_cons (by decide) []

/-- **A list of tokens is one program.** -/
theorem Derivation.unique {lang : Lang} {ts : List Tok} {bs : List (String × Expr)} {r : Expr}
    (h : Derivation lang ts bs r) : ∀ {bs' : List (String × Expr)} {r' : Expr},
      Derivation lang ts bs' r' → bs' = bs ∧ r' = r := by
  -- the last expression, in front of its end
  have hlast : ∀ {w v : List Tok} {r : Expr}, Derives lang .cond w r → (v = [] ∨ v = [.semi]) →
      ∀ {bs' : List (String × Expr)} {r' : Expr},
        Derivation lang (w ++ v) bs' r' → bs' = [] ∧ r' = r := by
    intro w v r hw hv bs' r' h'
    rcases h'.inv with ⟨rfl, w', v', heq, hw', hv'⟩ | ⟨x, w', e, v', bs', -, -, heq, -, -⟩
    · exact ⟨rfl, (hw.unique hw' (stops_end hv) (stops_end hv') heq).1.symm⟩
    · exact absurd (congrArg List.head? heq) hw.ne_let
  induction h with
  | ret h =>
    intro bs' r' h'
    exact hlast h (Or.inl rfl) (by rwa [List.append_nil])
  | semi h => exact hlast h (Or.inr rfl)
  | letIn _ h _ ih =>
    intro bs' r' h'
    rcases h'.inv with ⟨rfl, w', v', heq, hw', hv'⟩ |
      ⟨x', w', e', v', bs', -, rfl, heq, hw', hrest'⟩
    · exact absurd (congrArg List.head? heq.symm) hw'.ne_let
    · simp only [List.cons.injEq, Tok.ident.injEq, true_and] at heq
      obtain ⟨rfl, heq⟩ := heq
      have hsemi : ∀ v : List Tok, Stops 7 (.semi :: v) := stops_cons (by decide)
      obtain ⟨rfl, hv⟩ := h.unique hw' (hsemi _) (hsemi _) heq
      obtain rfl := (List.cons.inj hv).2
      obtain ⟨rfl, rfl⟩ := ih hrest'
      exact ⟨rfl, rfl⟩

/-! ## The tree of a program -/

/-- One more binding; its initializer sees the bindings before it. -/
def bindTree (b : Bindings) (x : String) (e : Expr) : Bindings :=
  ⟨b.locals ++ [(x, b.nextSlot)], b.nextSlot + 1, b.body ++ [⟨b.nextSlot, resolveIn b.locals e⟩]⟩

def bindTrees (b : Bindings) : List (String × Expr) → Bindings
  | [] => b
  | (x, e) :: bs => bindTrees (bindTree b x e) bs

/-- What a derivation stands for: its bindings in their slots, and its result. -/
def compiled (bs : List (String × Expr)) (r : Expr) : Bindings × Expr :=
  (bindTrees ⟨[], 0, []⟩ bs, resolveIn (bindTrees ⟨[], 0, []⟩ bs).locals r)

/-! ## Reading programs -/

/-- A binding of the grammar is read whole, its semicolon included. -/
theorem reads_letStatement {x : String} {w : List Tok} {e : Expr} (h : Derives .rust .cond w e)
    (locals : List (String × UInt16)) (v : List Tok) :
    letStatement locals (.ident x :: .assign :: (w ++ .semi :: v)) =
      .ok ((x, resolveIn locals e), v) := by
  have hread : Reads (fun _ => True) (letStatement locals) (.ident x :: .assign :: (w ++ [.semi]))
      (x, resolveIn locals e) := by
    refine Reads.advance_bind (Reads.expect_bind ?_)
    exact reads_closed (reads_expr h locals) (stops_cons (by decide)) (reads_pure _)
  have := hread v trivial
  simpa using this

/-- The last expression is read to the end of the program, with a semicolon behind it or
without. -/
theorem finalExpr_of_derives {lang : Lang} {w v : List Tok} {r : Expr}
    (h : Derives lang .cond w r) (hv : v = [] ∨ v = [.semi]) (b : Bindings) :
    finalExpr lang b (w ++ v) = .ok ((b, resolveIn b.locals r), []) := by
  rw [finalExpr, bind_run, reads_expr h b.locals v (stops_end hv), Outcome.ok_bind]
  rcases hv with rfl | rfl <;> rfl

/-- Up to the last `let`: the slots last, or the counter overflows. -/
theorem letLoop_of_derivation {ts : List Tok} {bs : List (String × Expr)} {r : Expr}
    (h : Derivation .rust ts bs r) : ∀ {b : Bindings} {fuel : ℕ}, ts.length < fuel →
      (letLoop fuel b >>= finalExpr .rust) ts =
        if b.nextSlot.toNat + bs.length < 2 ^ 16 then
          .ok ((bindTrees b bs, resolveIn (bindTrees b bs).locals r), [])
        else .panic := by
  -- no more `let`s
  have hlast : ∀ {w v : List Tok} {r : Expr}, Derives .rust .cond w r → (v = [] ∨ v = [.semi]) →
      ∀ {b : Bindings} {fuel : ℕ}, (w ++ v).length < fuel →
        (letLoop fuel b >>= finalExpr .rust) (w ++ v) =
          .ok ((b, resolveIn b.locals r), []) := by
    intro w v r hw hv b fuel hfuel
    obtain ⟨fuel, rfl⟩ : ∃ m, fuel = m + 1 := ⟨fuel - 1, by omega⟩
    rw [bind_run, letLoop_of_head_ne hw.ne_let, Outcome.ok_bind]
    exact finalExpr_of_derives hw hv b
  induction h with
  | @ret w r h =>
    intro b fuel hfuel
    have hok := hlast (b := b) h (Or.inl rfl) (by rwa [List.append_nil])
    rw [List.append_nil] at hok
    exact hok.trans (if_pos b.nextSlot.toNat_lt).symm
  | semi h =>
    intro b fuel hfuel
    exact (hlast h (Or.inr rfl) hfuel).trans (if_pos b.nextSlot.toNat_lt).symm
  | @letIn x w e v bs r _ h _ ih =>
    intro b fuel hfuel
    simp only [List.length_cons, List.length_append] at hfuel
    obtain ⟨fuel, rfl⟩ : ∃ m, fuel = m + 1 := ⟨fuel - 1, by omega⟩
    rw [bind_run, letLoop_letKw, reads_letStatement h b.locals v, Outcome.ok_bind]
    dsimp only
    rcases bindLocal_cases b x (resolveIn b.locals e) with ⟨hlt, hb⟩ | ⟨heq, hb⟩
    · have hnext : (b.nextSlot + 1).toNat = b.nextSlot.toNat + 1 := by
        rw [UInt16.toNat_add]
        exact Nat.mod_eq_of_lt hlt
      have hrest := @ih (bindTree b x e) fuel (by omega)
      simp only [bindTree, hnext, bind_run] at hrest
      rw [hb, Outcome.ok_bind, hrest, List.length_cons,
        show b.nextSlot.toNat + 1 + bs.length = b.nextSlot.toNat + (bs.length + 1) by omega]
      rfl
    · rw [hb, if_neg (by rw [List.length_cons]; omega)]
      rfl

/-- The parser on a derivation. -/
theorem program_of_derivation {lang : Lang} {ts : List Tok} {bs : List (String × Expr)} {r : Expr}
    (h : Derivation lang ts bs r) :
    program lang ts = if bs.length < 2 ^ 16 then .ok (compiled bs r, []) else .panic := by
  cases lang with
  | rust =>
    have hloop := letLoop_of_derivation h (b := ⟨[], 0, []⟩) (Nat.lt_succ_self ts.length)
    simpa [bind_run, program, bindings, compiled] using hloop
  | python =>
    rcases h.inv with ⟨rfl, w, v, rfl, hw, hv⟩ | ⟨_, _, _, _, _, hlang, -⟩
    · exact finalExpr_of_derives hw hv ⟨[], 0, []⟩
    · cases hlang

/-! ## Soundness -/

/-- What is read as a binding is one of the grammar. -/
theorem sound_letStatement (locals : List (String × UInt16)) :
    Sound (letStatement locals) fun u xe => ∃ w e, u = .ident xe.1 :: .assign :: (w ++ [.semi]) ∧
      Derives .rust .cond w e := by
  refine Sound.advance_bind (Sound.fail _) fun t => ?_
  cases t with
  | ident x =>
    refine Sound.expect_bind ((sound_expr .rust locals).bind fun w _ hw => Sound.expect_bind
      (Sound.pure ?_))
    obtain ⟨e, he, -⟩ := hw
    exact ⟨w, e, rfl, he⟩
  | _ => exact Sound.fail _

/-- **The loop over bindings** puts them before a derivation of what follows them. Induction on
the fuel. -/
theorem sound_letLoop : ∀ {fuel : ℕ} {b b' : Bindings} {ts ts' : List Tok},
    letLoop fuel b ts = .ok (b', ts') → ∀ {bs : List (String × Expr)} {r : Expr},
      Derivation .rust ts' bs r → ∃ bs', Derivation .rust ts bs' r := by
  intro fuel
  induction fuel with
  | zero => exact fun h => by cases h
  | succ fuel ih =>
    intro b b' ts ts' h bs r hd
    by_cases hhead : ts.head? = some .letKw
    · obtain ⟨ts₁, rfl⟩ : ∃ ts₁, ts = .letKw :: ts₁ := by
        cases ts with
        | nil => cases hhead
        | cons t ts₁ => exact ⟨ts₁, by rw [Option.some_inj.mp hhead]⟩
      rw [letLoop_letKw] at h
      obtain ⟨⟨⟨x, e'⟩, ts₂⟩, hlet, hbind⟩ := Outcome.bind_eq_ok.mp h
      obtain ⟨b₁, -, hloop⟩ := Outcome.bind_eq_ok.mp hbind
      obtain ⟨u, rfl, w, e, rfl, hw⟩ := sound_letStatement b.locals _ _ _ hlet
      obtain ⟨bs', hd'⟩ := ih hloop hd
      refine ⟨(x, e) :: bs', ?_⟩
      have := Derivation.letIn (x := x) rfl hw hd'
      simpa using this
    · rw [letLoop_of_head_ne hhead] at h
      obtain ⟨-, rfl⟩ := Prod.mk.inj (Outcome.ok.inj h)
      exact ⟨bs, hd⟩

/-- What is read to the end is an expression of the grammar, and is a program without bindings. -/
theorem sound_finalExpr {lang : Lang} {b : Bindings} {ts rest : List Tok} {out : Bindings × Expr}
    (h : finalExpr lang b ts = .ok (out, rest)) : ∃ r, Derivation lang ts [] r := by
  obtain ⟨⟨e', ts₁⟩, he, -⟩ := Outcome.bind_eq_ok.mp h
  obtain ⟨w, rfl, e, hw, -⟩ := sound_expr lang b.locals _ _ _ he
  refine ⟨e, ?_⟩
  rw [finalExpr, bind_run, he, Outcome.ok_bind, bind_run, eat] at h
  by_cases hsemi : ts₁.head? = some .semi
  · obtain ⟨ts₂, rfl⟩ : ∃ ts₂, ts₁ = .semi :: ts₂ := by
      cases ts₁ with
      | nil => cases hsemi
      | cons t ts₂ => exact ⟨ts₂, by rw [Option.some_inj.mp hsemi]⟩
    rw [if_pos hsemi] at h
    cases ts₂ with
    | nil => exact .semi hw
    | cons t ts₂ => cases h
  · rw [if_neg hsemi] at h
    cases ts₁ with
    | nil =>
      rw [List.append_nil]
      exact .ret hw
    | cons t ts₁ => cases h

/-- **What `program` accepts is a program of the grammar.** -/
theorem derivation_of_program {lang : Lang} {ts rest : List Tok} {out : Bindings × Expr}
    (h : program lang ts = .ok (out, rest)) : ∃ bs r, Derivation lang ts bs r := by
  obtain ⟨⟨b, ts₁⟩, hb, hfinal⟩ := Outcome.bind_eq_ok.mp h
  obtain ⟨r, hr⟩ := sound_finalExpr hfinal
  unfold bindings at hb
  split at hb
  · next hlang =>
    subst hlang
    obtain ⟨bs, hbs⟩ := sound_letLoop hb hr
    exact ⟨bs, r, hbs⟩
  · obtain ⟨-, rfl⟩ := Prod.mk.inj (Outcome.ok.inj hb)
    exact ⟨[], r, hr⟩

/-- **What `parse` accepts is the tree of a derivation**, with fewer bindings than there are
slots. -/
theorem compiled_of_parse {src : String} {lang : Lang} {p : Program} (h : parse src lang = .ok p) :
    ∃ toks bs r, Lex.lex src = .ok toks ∧ Derivation lang toks bs r ∧ bs.length < 2 ^ 16 ∧
      p = ⟨(compiled bs r).1.body, (compiled bs r).2, (compiled bs r).1.nextSlot,
        defaultMaxSteps⟩ := by
  obtain ⟨toks, htoks, hparse⟩ := Outcome.bind_eq_ok.mp h
  obtain ⟨⟨⟨b, ret⟩, rest⟩, hprogram, hp⟩ := Outcome.bind_eq_ok.mp hparse
  obtain rfl := Outcome.ok.inj hp
  obtain ⟨bs, r, hd⟩ := derivation_of_program hprogram
  rw [program_of_derivation hd] at hprogram
  split at hprogram
  · next hlen =>
    obtain ⟨hcompiled, -⟩ := Prod.mk.inj (Outcome.ok.inj hprogram)
    refine ⟨toks, bs, r, htoks, hd, hlen, ?_⟩
    rw [hcompiled]
  · cases hprogram

/-! ## Acceptance -/

/-- `program` accepts the list exactly if it is a program of the grammar, and returns the
tree of its only derivation. -/
structure Accepts (lang : Lang) (ts : List Tok) : Prop where
  succeeds_iff : (∃ out, program lang ts = .ok out) ↔ ∃ bs r, Derivation lang ts bs r
  tree : ∀ out, program lang ts = .ok out → ∃ bs r, Derivation lang ts bs r ∧
    (∀ bs' r', Derivation lang ts bs' r' → bs' = bs ∧ r' = r) ∧ out = (compiled bs r, [])

/-- With too many bindings the parser panics on a program of the grammar. -/
theorem not_accepts_of_derivation {lang : Lang} {ts : List Tok} {bs : List (String × Expr)}
    {r : Expr} (h : Derivation lang ts bs r) (hlen : 2 ^ 16 ≤ bs.length) :
    ¬ Accepts lang ts := by
  intro haccepts
  obtain ⟨out, hout⟩ := haccepts.succeeds_iff.mpr ⟨bs, r, h⟩
  rw [program_of_derivation h, if_neg (not_lt.mpr hlen)] at hout
  cases hout

/-- **The parser accepts exactly its grammar**, apart from the programs with 65536
bindings or more. -/
theorem accepts_iff (lang : Lang) (ts : List Tok) :
    Accepts lang ts ↔ ¬ ∃ bs r, Derivation lang ts bs r ∧ 2 ^ 16 ≤ bs.length := by
  constructor
  · rintro haccepts ⟨bs, r, h, hlen⟩
    exact not_accepts_of_derivation h hlen haccepts
  intro hfew
  have hprogram : ∀ {bs r}, Derivation lang ts bs r →
      program lang ts = .ok (compiled bs r, []) := by
    intro bs r h
    have hlen : bs.length < 2 ^ 16 := not_le.mp fun hlen => hfew ⟨bs, r, h, hlen⟩
    rw [program_of_derivation h, if_pos hlen]
  constructor
  · constructor
    · rintro ⟨⟨out, rest⟩, hout⟩
      exact derivation_of_program hout
    · rintro ⟨bs, r, h⟩
      exact ⟨_, hprogram h⟩
  · rintro ⟨out, rest⟩ hout
    obtain ⟨bs, r, h⟩ := derivation_of_program hout
    refine ⟨bs, r, h, fun bs' r' h' => h.unique h', ?_⟩
    rw [hprogram h] at hout
    exact (Outcome.ok.inj hout).symm

/-- `let x = 0;`, a number of times, and `0`. -/
def manyLets : ℕ → List Tok
  | 0 => [.int 0]
  | n + 1 => .letKw :: .ident "x" :: .assign :: .int 0 :: .semi :: manyLets n

/-- The grammar has programs with any number of bindings, so the bound of the slots is the
parser's own. -/
theorem derivation_manyLets (n : ℕ) : Derivation .rust (manyLets n)
    (List.replicate n ("x", .const (.int 0))) (.const (.int 0)) := by
  have hzero : Derives .rust .cond [.int 0] (.const (.int 0)) :=
    .cond <| .or_one <| .and_one <| .not_one <| .cmp_one <| .add_one <| .mul_one <| .unary_one <|
      .postfix_one <| .literal rfl
  induction n with
  | zero => exact .ret hzero
  | succ n ih => exact .letIn rfl hzero ih

/-- 65536 bindings: the list is a program of the grammar, and the parser panics. -/
theorem not_accepts_manyLets : ¬ Accepts .rust (manyLets (2 ^ 16)) :=
  not_accepts_of_derivation (derivation_manyLets _) (by rw [List.length_replicate])

end Grammar
