/-
# The on-device parser is total, up to two panics

Every level of the parser returns and consumes a token (`consumes_conditional`,
by induction on the nesting depth with one `Consumes` rule for each operation).
The indices of `cmp_expr` are in range, because a chain has one operand more than
it has comparisons (`cmpChain_returns`).

What remains are the two ways to panic: the lexer's operator window splits a
character (`Lex.CutsChar`), or a Rust program completes more `let`s than there are
slots (`CompletesLets`).  `parse_returns_iff` shows that `parse` returns on
exactly the other texts.
-/
import PySpell.Parse

open TokenParser

namespace Parse

/-! ## Comparison chains -/

/-- The terms of a chain exist when every comparison has its two operands. -/
theorem cmpTerms_eq_ok (operands : List Expr) (ops : List CmpKind) :
    ∀ i : ℕ, i + ops.length < operands.length →
      ∃ terms, cmpTerms operands i ops = .ok terms ∧ terms.length = ops.length := by
  induction ops with
  | nil => exact fun _ _ => ⟨[], rfl, rfl⟩
  | cons k ks ih =>
    intro i hi
    simp only [List.length_cons] at hi
    obtain ⟨terms, ht, hlen⟩ := ih (i + 1) (by omega)
    have h1 : i < operands.length := by omega
    have h2 : i + 1 < operands.length := by omega
    refine ⟨cmpTerm k operands[i] operands[i + 1] :: terms, ?_, by simp [hlen]⟩
    simp [cmpTerms, List.getElem?_eq_getElem h1, List.getElem?_eq_getElem h2, ht]

/-- **No index of `cmp_expr` is out of range, and no `unwrap` fails.** -/
theorem cmpChain_returns {operands : List Expr} {ops : List CmpKind}
    (h : operands.length = ops.length + 1) : (cmpChain operands ops).Returns := by
  unfold cmpChain
  cases ops with
  | nil =>
    obtain ⟨e, rfl⟩ := List.length_eq_one_iff.mp h
    simp
  | cons k ks =>
    obtain ⟨terms, ht, hlen⟩ := cmpTerms_eq_ok operands (k :: ks) 0 (by omega)
    dsimp only
    rw [ht, Outcome.ok_bind]
    cases terms with
    | nil => simp at hlen
    | cons t ts => simp [conjunction]

/-- A comparison that is read takes a token at least; otherwise nothing is taken. -/
theorem cmpKind_cases (ts : List Tok) :
    cmpKind ts = .ok (none, ts) ∨
      ∃ k ts', cmpKind ts = .ok (some k, ts') ∧ ts'.length + 1 ≤ ts.length := by
  unfold cmpKind
  split <;> first
    | exact Or.inr ⟨_, _, rfl, by simp⟩
    | exact Or.inl rfl

/-- The chain loop keeps one operand more than comparisons. -/
theorem length_cmpLoop {operand : P Expr} :
    ∀ {fuel : ℕ} {operands operands' : List Expr} {ops ops' : List CmpKind} {ts ts' : List Tok},
      operands.length = ops.length + 1 →
      cmpLoop operand fuel operands ops ts = .ok ((operands', ops'), ts') →
      operands'.length = ops'.length + 1 := by
  intro fuel
  induction fuel with
  | zero => intro _ _ _ _ _ _ _ hp; cases hp
  | succ fuel ih =>
    intro operands operands' ops ops' ts ts' hlen hp
    simp only [cmpLoop, bind_run] at hp
    rcases cmpKind_cases ts with hk | ⟨k, ts₁, hk, -⟩
    · rw [hk, Outcome.ok_bind] at hp
      obtain ⟨hpair, -⟩ := Prod.mk.inj (Outcome.ok.inj hp)
      obtain ⟨rfl, rfl⟩ := Prod.mk.inj hpair
      exact hlen
    · rw [hk, Outcome.ok_bind] at hp
      obtain ⟨⟨e, ts₂⟩, -, hp⟩ := Outcome.bind_eq_ok.mp hp
      exact ih (by simp [hlen]) hp

/-- The loop over comparisons takes a token in each turn, so fuel above the number of tokens
lasts. Induction on the fuel. -/
theorem consumes_cmpLoop {operand : P Expr} {n : ℕ} (h : Consumes n 1 operand) :
    ∀ {fuel : ℕ} {operands : List Expr} {ops : List CmpKind}, n < fuel →
      Consumes n 0 (cmpLoop operand fuel operands ops) := by
  intro fuel
  induction fuel generalizing n with
  | zero => intro operands ops hlt; omega
  | succ fuel ih =>
    intro operands ops hlt ts hts
    simp only [cmpLoop, bind_run]
    rcases cmpKind_cases ts with hk | ⟨k, ts₁, hk, hlen₁⟩
    · rw [hk]
      exact Consumes.pure _ ts hts
    · rw [hk, Outcome.ok_bind]
      have hrest : Consumes (n - 1) 1 (operand >>= fun e =>
          cmpLoop operand fuel (operands ++ [e]) (ops ++ [k])) :=
        (h.mono (by omega) le_rfl).bind_right fun e =>
          ih (h.mono (by omega) le_rfl) (by omega)
      have hts₁ : ts₁.length ≤ n - 1 := by omega
      exact ⟨hrest.returns hts₁, fun a ts' hp => by
        have := hrest.length_le hts₁ hp
        omega⟩

/-! ## The levels -/

section Levels

variable {lang : Lang} {locals : List (String × UInt16)} {cond orE : P Expr} {n : ℕ}

/-- An expected token is taken or is an error. -/
theorem consumes_expectTok (t : Tok) (what : String) : Consumes n 0 (expectTok t what) :=
  Consumes.expect t _

/-- A list up to its bracket needs no more than its items do. -/
theorem consumes_itemsUntil {close : Tok} {items : P (List Expr)} (h : Consumes n 1 items) :
    Consumes n 0 (itemsUntil close items) :=
  Consumes.peek.bind_left fun t => by
    split_ifs
    · exact Consumes.pure _
    · exact h.mono le_rfl (by omega)

/-- A closing token, and then a value. -/
theorem consumes_closed {α β : Type} {p : P α} {f : α → β} {t : Tok} {what : String} {k : ℕ}
    (h : Consumes n k p) : Consumes n k (do
      let a ← p
      expectTok t what
      Pure.pure (f a) : P β) :=
  h.bind_right fun _ => (consumes_expectTok t what).bind_left fun _ => Consumes.pure _

/-- An `else` takes its tokens before the chain goes on. -/
theorem consumes_elsePart {chain : P Expr} (hc : Consumes n 1 cond) (h : Consumes n 1 chain) :
    Consumes n 1 (elsePart cond chain) :=
  Consumes.peek.bind_left fun t => by
    split_ifs
    · exact Consumes.advance.bind_left fun _ => h
    · exact (consumes_expectTok _ _).bind_left fun _ => consumes_closed (f := id) hc

/-- An `else if` chain has at most as many links as there are tokens. -/
theorem consumes_rustIf (hc : Consumes n 1 cond) (ho : Consumes n 1 orE) :
    ∀ fuel : ℕ, n < fuel → Consumes n 1 (rustIf cond orE fuel) := by
  intro fuel
  induction fuel generalizing n with
  | zero => intro hlt; omega
  | succ fuel ih =>
    intro hlt
    rcases Nat.eq_zero_or_pos n with rfl | hn
    · exact ho.bind_of_nil
    · have hc' : Consumes (n - 1) 1 cond := hc.mono (by omega) le_rfl
      have helse : Consumes (n - 1) 1 (elsePart cond (rustIf cond orE fuel)) :=
        consumes_elsePart hc' (ih hc' (ho.mono (by omega) le_rfl) (by omega))
      refine ho.bind_right fun c => (consumes_expectTok _ _).bind_left fun _ => ?_
      refine (hc'.mono le_rfl (by omega)).bind_left fun t => ?_
      refine (consumes_expectTok _ _).bind_left fun _ => ?_
      refine (consumes_expectTok _ _).bind_left fun _ => ?_
      exact (helse.mono le_rfl (by omega)).bind_left fun e => Consumes.pure _

/-- The name is taken already, so nothing more need be. -/
theorem consumes_callOrName {name : String} (hc : Consumes n 1 cond) :
    Consumes n 0 (callOrName locals cond name) :=
  Consumes.peek.bind_left fun t => by
    split_ifs
    · refine Consumes.advance.bind_left fun _ => ?_
      refine (consumes_itemsUntil (Consumes.commaList hc)).bind_left fun args => ?_
      refine (consumes_expectTok _ _).bind_left fun _ => ?_
      refine (Consumes.lift ?_).bind_left fun b => Consumes.pure _
      unfold builtinFrom
      split <;> trivial
    · exact Consumes.pure _

/-- `primary` descends only after its first token. -/
theorem consumes_primary (hc : ∀ m < n, Consumes m 1 cond) (ho : ∀ m < n, Consumes m 1 orE) :
    Consumes n 1 (primary lang locals cond orE) := by
  refine Consumes.advance_bind (Consumes.fail _) fun t m hm => ?_
  have hcm := hc m hm
  have hom := ho m hm
  cases t with
  | int | float | bool | str => exact Consumes.pure _
  | lParen => exact (consumes_closed (f := id) hcm).mono le_rfl (Nat.zero_le 1)
  | lBracket => exact consumes_closed (consumes_itemsUntil (Consumes.commaList hcm))
  | ifKw =>
    by_cases hl : lang = .rust
    · subst hl
      intro ts hts
      have := consumes_rustIf (hcm.mono hts le_rfl) (hom.mono hts le_rfl) (ts.length + 1)
        (by omega)
      exact (this.mono le_rfl (Nat.zero_le 1)) ts le_rfl
    · simp only [hl]
      exact Consumes.fail _
  | ident name => exact consumes_callOrName hcm
  | _ => exact Consumes.fail _

/-- An index or a method call takes the rest of what its first token began. -/
theorem consumes_postfixOp (hc : Consumes n 1 cond) {t : Tok} {p : P (Expr → Expr)}
    (h : postfixOp cond t = some p) : Consumes n 0 p := by
  unfold postfixOp at h
  split at h
  · obtain rfl := Option.some.inj h
    exact (consumes_closed hc).mono le_rfl (by omega)
  · obtain rfl := Option.some.inj h
    refine Consumes.advance.bind_left fun t => ?_
    split
    · split_ifs
      · exact Consumes.fail _
      · refine (consumes_expectTok _ _).bind_left fun _ => ?_
        exact (consumes_closed hc).mono le_rfl (by omega)
    · exact Consumes.fail _
  · cases h

/-! ### Operators -/

/-- Sums: the level below takes a token for each operand. -/
theorem consumes_addExpr (hc : ∀ m < n, Consumes m 1 cond) (ho : ∀ m < n, Consumes m 1 orE) :
    Consumes n 1 (addExpr lang locals cond orE) :=
  Consumes.leftAssoc (Consumes.leftAssoc (Consumes.prefixed
    (Consumes.suffixed (consumes_primary hc ho) fun _ _ hp m hm => consumes_postfixOp (hc m hm) hp)))

/-- Comparisons: the loop is given one unit of fuel more than there are tokens. -/
theorem consumes_cmpExpr (hc : ∀ m < n, Consumes m 1 cond) (ho : ∀ m < n, Consumes m 1 orE) :
    Consumes n 1 (cmpExpr lang locals cond orE) := by
  intro ts hts
  have hadd : Consumes ts.length 1 (addExpr lang locals cond orE) :=
    (consumes_addExpr hc ho).mono hts le_rfl
  have hloop : ∀ first, Consumes (ts.length - 1) 0
      (cmpLoop (addExpr lang locals cond orE) (ts.length + 1) [first] []) :=
    fun first => consumes_cmpLoop (hadd.mono (by omega) le_rfl) (by omega)
  have hchain : ∀ {first operands ops ts₁ ts₂},
      cmpLoop (addExpr lang locals cond orE) (ts.length + 1) [first] [] ts₁ =
        .ok ((operands, ops), ts₂) → Consumes ts₂.length 0 (lift (cmpChain operands ops) : P Expr) :=
    fun h => Consumes.lift (cmpChain_returns (length_cmpLoop rfl h))
  unfold cmpExpr
  simp only [bind_run]
  constructor
  · refine Outcome.returns_bind.mpr ⟨hadd.returns le_rfl, ?_⟩
    rintro ⟨first, ts₁⟩ hfirst
    have h1 := hadd.length_le le_rfl hfirst
    refine Outcome.returns_bind.mpr ⟨(hloop first).returns (by dsimp only; omega), ?_⟩
    rintro ⟨⟨operands, ops⟩, ts₂⟩ hops
    exact (hchain hops).returns le_rfl
  · intro e ts' hp
    obtain ⟨⟨first, ts₁⟩, hfirst, hp⟩ := Outcome.bind_eq_ok.mp hp
    obtain ⟨⟨⟨operands, ops⟩, ts₂⟩, hops, hp⟩ := Outcome.bind_eq_ok.mp hp
    have h1 := hadd.length_le le_rfl hfirst
    have h2 : ts₂.length + 0 ≤ ts₁.length :=
      (hloop first).length_le (by omega) hops
    have h3 := (hchain hops).length_le le_rfl hp
    omega

/-- **A level of the parser consumes a token when the inner levels do.** -/
theorem consumes_orLevel (hc : ∀ m < n, Consumes m 1 cond) (ho : ∀ m < n, Consumes m 1 orE) :
    Consumes n 1 (orLevel lang locals cond orE) :=
  Consumes.leftAssoc (Consumes.leftAssoc (Consumes.prefixed (consumes_cmpExpr hc ho)))

/-- A conditional takes its condition first, so the parts behind it are read from fewer tokens. -/
theorem consumes_condLevel (hc : ∀ m < n, Consumes m 1 cond) (ho : Consumes n 1 orE) :
    Consumes n 1 (condLevel lang cond orE) := by
  rcases Nat.eq_zero_or_pos n with rfl | hn
  · exact ho.bind_of_nil
  · refine ho.bind_right fun e => Consumes.peek.bind_left fun t => ?_
    split_ifs
    · refine Consumes.advance.bind_left fun _ => ?_
      refine (ho.mono (Nat.sub_le n 1) (Nat.zero_le 1)).bind_left fun test => ?_
      refine (consumes_expectTok _ _).bind_left fun _ => ?_
      refine ((hc (n - 1) (by omega)).mono le_rfl (Nat.zero_le 1)).bind_left fun _ => ?_
      exact Consumes.pure _
    · exact Consumes.pure _

end Levels

/-- **Totality of the expression parser**: with twice the number of tokens as the
bound on the depth, `conditional` and `or_expr` return and consume a token. -/
theorem consumes_conditional (lang : Lang) (locals : List (String × UInt16)) (fuel : ℕ) :
    (∀ n, 2 * n + 2 ≤ fuel → Consumes n 1 (conditional lang locals fuel)) ∧
      ∀ n, 2 * n + 1 ≤ fuel → Consumes n 1 (orExpr lang locals fuel) := by
  induction fuel with
  | zero => exact ⟨fun n h => by omega, fun n h => by omega⟩
  | succ fuel ih =>
    obtain ⟨ihc, iho⟩ := ih
    constructor
    · intro n hn
      rw [conditional]
      exact consumes_condLevel (fun m hm => ihc m (by omega)) (iho n (by omega))
    · intro n hn
      rw [orExpr]
      exact consumes_orLevel (fun m hm => ihc m (by omega)) (fun m hm => iho m (by omega))

/-- **An expression takes a token at least and returns**, for every nesting bound that is as large
as the input. -/
theorem consumes_expr (lang : Lang) (locals : List (String × UInt16)) (n : ℕ) :
    Consumes n 1 (expr lang locals) := fun ts _ =>
  (consumes_conditional lang locals (2 * ts.length + 2)).1 ts.length le_rfl ts le_rfl

/-! ## Bindings -/

/-- So does a binding. -/
theorem consumes_letStatement (locals : List (String × UInt16)) (n : ℕ) :
    Consumes n 1 (letStatement locals) := by
  refine Consumes.advance_bind (Consumes.fail _) fun t m _ => ?_
  split
  · refine (consumes_expectTok _ _).bind_left fun _ => ?_
    exact (consumes_closed (consumes_expr .rust locals m)).mono le_rfl (Nat.zero_le 1)
  · exact Consumes.fail _

/-- **The next slot exists up to the 65536th.** -/
theorem bindLocal_cases (b : Bindings) (name : String) (e : Expr) :
    (b.nextSlot.toNat + 1 < 2 ^ 16 ∧ bindLocal b name e = .ok ⟨b.locals ++ [(name, b.nextSlot)],
      b.nextSlot + 1, b.body ++ [⟨b.nextSlot, e⟩]⟩) ∨
    (b.nextSlot.toNat + 1 = 2 ^ 16 ∧ bindLocal b name e = .panic) := by
  unfold bindLocal declare
  split_ifs with h
  · exact Or.inl ⟨h, rfl⟩
  · have := b.nextSlot.toNat_lt
    exact Or.inr ⟨by omega, rfl⟩

/-- `n` complete `let` statements stand at the front of the tokens. -/
def CompletesLets : ℕ → List (String × UInt16) → UInt16 → List Tok → Prop
  | 0, _, _, _ => True
  | n + 1, locals, slot, ts =>
    ∃ ts₁ name e ts₂, ts = .letKw :: ts₁ ∧ letStatement locals ts₁ = .ok ((name, e), ts₂) ∧
      CompletesLets n (locals ++ [(name, slot)]) (slot + 1) ts₂

/-- A round of the loop on tokens that start with no `let`. -/
theorem letLoop_of_head_ne {fuel : ℕ} {b : Bindings} {ts : List Tok}
    (h : ts.head? ≠ some .letKw) : letLoop (fuel + 1) b ts = .ok (b, ts) := by
  simp only [letLoop, bind_run, peek, Outcome.ok_bind]
  rw [if_neg h, pure_run]

/-- A round of the loop on a `let`. -/
theorem letLoop_letKw {fuel : ℕ} {b : Bindings} {ts : List Tok} :
    letLoop (fuel + 1) b (.letKw :: ts) = letStatement b.locals ts >>= fun r =>
      bindLocal b r.1.1 r.1.2 >>= fun b' => letLoop fuel b' r.2 := by
  simp only [letLoop, bind_run, peek, advance, lift, Outcome.ok_bind, List.head?_cons,
    List.tail_cons, if_true]
  rcases letStatement b.locals ts with ⟨⟨name, e⟩, ts₁⟩ | e | _ | _ <;> try rfl
  simp only [Outcome.ok_bind]
  cases bindLocal b name e <;> rfl

/-- **The loop panics exactly when it completes one `let` more than slots are left.** -/
theorem letLoop_returns_iff {fuel : ℕ} :
    ∀ {b : Bindings} {ts : List Tok}, ts.length < fuel →
      ((letLoop fuel b ts).Returns ↔
        ¬ CompletesLets (2 ^ 16 - b.nextSlot.toNat) b.locals b.nextSlot ts) := by
  induction fuel with
  | zero => intro b ts h; omega
  | succ fuel ih =>
    intro b ts hts
    have hslot := b.nextSlot.toNat_lt
    rw [show 2 ^ 16 - b.nextSlot.toNat = (2 ^ 16 - b.nextSlot.toNat - 1) + 1 by omega,
      CompletesLets]
    -- the induction is on the fuel, which a binding spends one of
    by_cases hhead : ts.head? = some .letKw
    · obtain ⟨ts₁, rfl⟩ : ∃ ts₁, ts = .letKw :: ts₁ := by
        rcases ts with _ | ⟨t, ts₁⟩
        · cases hhead
        · exact ⟨ts₁, by rw [Option.some.inj hhead]⟩
      simp only [List.length_cons] at hts
      have hcons := consumes_letStatement b.locals ts₁.length
      rw [letLoop_letKw]
      rcases hlet : letStatement b.locals ts₁ with ⟨⟨name, e⟩, ts₂⟩ | er | _ | _
      · -- the binding is read
        have hlen := hcons.length_le le_rfl hlet
        simp only [Outcome.ok_bind]
        rcases bindLocal_cases b name e with ⟨hlt, hb⟩ | ⟨heq, hb⟩
        · -- a slot is left
          have hnext : (b.nextSlot + 1).toNat = b.nextSlot.toNat + 1 := by
            rw [UInt16.toNat_add]
            exact Nat.mod_eq_of_lt hlt
          rw [hb, Outcome.ok_bind, ih (by omega)]
          simp only [hnext]
          rw [show 2 ^ 16 - (b.nextSlot.toNat + 1) = 2 ^ 16 - b.nextSlot.toNat - 1 by omega]
          refine not_congr ⟨fun h => ⟨ts₁, name, e, ts₂, rfl, hlet, h⟩, ?_⟩
          rintro ⟨ts₁', name', e', ts₂', hts', hlet', h⟩
          obtain rfl := (List.cons.inj hts').2
          rw [hlet] at hlet'
          obtain ⟨hpair, rfl⟩ := Prod.mk.inj (Outcome.ok.inj hlet')
          obtain ⟨rfl, rfl⟩ := Prod.mk.inj hpair
          exact h
        · -- no slot is left
          rw [hb, Outcome.panic_bind]
          simp only [Outcome.not_returns_panic, false_iff, not_not]
          refine ⟨ts₁, name, e, ts₂, rfl, hlet, ?_⟩
          rw [show 2 ^ 16 - b.nextSlot.toNat - 1 = 0 by omega]
          trivial
      · simp only [Outcome.err_bind, Outcome.returns_err, true_iff]
        rintro ⟨ts₁', name', e', ts₂', hts', hlet', -⟩
        obtain rfl := (List.cons.inj hts').2
        rw [hlet] at hlet'
        cases hlet'
      all_goals
        have := hcons.returns le_rfl
        rw [hlet] at this
        exact this.elim
    · rw [letLoop_of_head_ne hhead]
      simp only [Outcome.returns_ok, true_iff]
      rintro ⟨ts₁', name', e', ts₂', rfl, -⟩
      exact hhead rfl

/-! ## Programs -/

/-- The end of a program returns, and may take no token. -/
theorem consumes_finalExpr (lang : Lang) (b : Bindings) (n : ℕ) :
    Consumes n 0 (finalExpr lang b) := by
  refine ((consumes_expr lang b.locals n).mono le_rfl (Nat.zero_le 1)).bind_left fun ret => ?_
  refine (Consumes.eat _).bind_left fun _ => Consumes.peek.bind_left fun t => ?_
  split_ifs
  · exact Consumes.pure _
  · exact Consumes.fail _

/-- Only the bindings of a program can panic. -/
theorem program_returns_iff_bindings (lang : Lang) (ts : List Tok) :
    (program lang ts).Returns ↔ (bindings lang ts).Returns := by
  have hfinal : ∀ r, bindings lang ts = .ok r → (finalExpr lang r.1 r.2).Returns :=
    fun r _ => (consumes_finalExpr lang r.1 r.2.length).returns le_rfl
  unfold program
  rw [bind_run, Outcome.returns_bind]
  exact and_iff_left hfinal

/-- **A program is parsed or refused, with one exception**: more bindings than there are slots. -/
theorem program_returns_iff (lang : Lang) (ts : List Tok) :
    (program lang ts).Returns ↔ ¬ (lang = .rust ∧ CompletesLets (2 ^ 16) [] 0 ts) := by
  rw [program_returns_iff_bindings]
  unfold bindings
  cases lang with
  | rust =>
    have hloop := letLoop_returns_iff (b := ⟨[], 0, []⟩) (show ts.length < ts.length + 1 by omega)
    simpa using hloop
  | python => simp

/-- **The parser returns exactly on the texts in which no operator window splits a
character, unless a Rust text completes 65536 `let`s.** -/
theorem parse_returns_iff (src : String) (lang : Lang) :
    (parse src lang).Returns ↔
      (∀ i, Lex.Reaches (Text.utf8 src) 0 i → ¬ Lex.CutsChar (Text.utf8 src) i) ∧
      ∀ toks, Lex.lex src = .ok toks → ¬ (lang = .rust ∧ CompletesLets (2 ^ 16) [] 0 toks) := by
  unfold parse
  rw [Outcome.returns_bind, Lex.lex_returns_iff]
  refine and_congr_right fun _ => forall_congr' fun toks => imp_congr_right fun _ => ?_
  rw [Outcome.returns_bind, program_returns_iff]
  exact and_iff_left fun _ _ => trivial

/-- `+é`: the two bytes at the start end inside the second character. -/
theorem parse_not_returns : ¬ (parse "+é" .python).Returns ∧ ¬ (parse "+é" .rust).Returns := by
  decide +kernel

end Parse
