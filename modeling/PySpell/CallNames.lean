/-
# Calls and their names

A builtin is called by its name, but for `contains`, which is a method.  So the name of
every builtin that a parsed program calls stands in its text, letter by letter: the grammar
has it among the tokens (`named_of_derives`), the slots of the parser leave calls as they
are (`calls_resolveIn`), and the lexer cuts names out of the text (`ident_of_lex`).
-/
import PySpell.GrammarProgram

open TokenParser Parse Text

/-! ## Calls -/

mutual

/-- The builtins that a tree calls. -/
def Expr.calls : Expr → List Builtin
  | .const _ | .var _ | .local _ => []
  | .bin _ a b | .cmp _ a b | .bool _ a b => a.calls ++ b.calls
  | .unary _ a => a.calls
  | .index l i => l.calls ++ i.calls
  | .ite c t e => c.calls ++ (t.calls ++ e.calls)
  | .call b args => b :: Expr.callsAll args
  | .list items => Expr.callsAll items

def Expr.callsAll : List Expr → List Builtin
  | [] => []
  | e :: es => e.calls ++ Expr.callsAll es

end

/-- The builtins that a program calls, in its bindings and in its result. -/
def Program.calls (p : Program) : List Builtin :=
  Expr.callsAll (p.body.map LetBinding.expr) ++ p.ret.calls

namespace Grammar

mutual

/-- A slot calls nothing, and neither did the name. -/
theorem calls_resolveIn (locals : List (String × UInt16)) : ∀ e : Expr,
    (resolveIn locals e).calls = e.calls
  | .const _ | .local _ => rfl
  | .var name => by
    rw [resolveIn, nameTree]
    split <;> rfl
  | .bin _ a b | .cmp _ a b | .bool _ a b => by
    rw [resolveIn, Expr.calls, Expr.calls, calls_resolveIn locals a, calls_resolveIn locals b]
  | .unary _ a => by rw [resolveIn, Expr.calls, Expr.calls, calls_resolveIn locals a]
  | .index l i => by
    rw [resolveIn, Expr.calls, Expr.calls, calls_resolveIn locals l, calls_resolveIn locals i]
  | .ite c t e => by
    rw [resolveIn, Expr.calls, Expr.calls, calls_resolveIn locals c, calls_resolveIn locals t,
      calls_resolveIn locals e]
  | .call _ args => by rw [resolveIn, Expr.calls, Expr.calls, calls_resolveAll locals args]
  | .list items => by rw [resolveIn, Expr.calls, Expr.calls, calls_resolveAll locals items]

/-- Putting slots for names changes no call. -/
theorem calls_resolveAll (locals : List (String × UInt16)) : ∀ es : List Expr,
    Expr.callsAll (resolveAll locals es) = Expr.callsAll es
  | [] => rfl
  | e :: es => by
    rw [resolveAll, Expr.callsAll, Expr.callsAll, calls_resolveIn locals e,
      calls_resolveAll locals es]

end

/-! ## Names among the tokens -/

/-- The names of the builtins stand among the tokens; the method needs none. -/
def Named (w : List Tok) (bs : List Builtin) : Prop :=
  ∀ b ∈ bs, b ≠ .contains → ∃ x, .ident x ∈ w ∧ x ∈ names b

namespace Named

variable {w v : List Tok} {b : Builtin} {bs cs : List Builtin} {x : String}

/-- No calls need no names. -/
theorem nil : Named w [] := nofun

/-- More tokens name more. -/
theorem mono (h : Named v bs) (hv : ∀ t ∈ v, t ∈ w) : Named w bs := by
  intro b hb hne
  obtain ⟨x, hx, hname⟩ := h b hb hne
  exact ⟨x, hv _ hx, hname⟩

/-- Calls of two parts are named by the same tokens. -/
theorem append (h : Named w bs) (h' : Named w cs) : Named w (bs ++ cs) := fun b hb =>
  (List.mem_append.mp hb).elim (h b) (h' b)

/-- The method is a call without a name of its own: it is spelled behind a dot. -/
theorem method (h : Named w bs) : Named w (.contains :: bs) := by
  intro b hb hne
  exact h b ((List.mem_cons.mp hb).resolve_left hne) hne

/-- A call is named by the token before its parenthesis. -/
theorem call (hx : .ident x ∈ w) (hb : x ∈ names b) (h : Named w bs) :
    Named w (b :: bs) := by
  intro c hc hne
  rcases List.mem_cons.mp hc with rfl | hc
  · exact ⟨x, hx, hb⟩
  · exact h c hc hne

/-- A comparison adds the call of the method at most, for `in`. -/
theorem comparison {k : CmpKind} {a e : Expr} (ha : Named w a.calls) (he : Named w e.calls) :
    Named w (Grammar.comparison k a e).calls := by
  have hin : Named w (Builtin.contains :: (e.calls ++ (a.calls ++ []))) :=
    (he.append (ha.append nil)).method
  cases k with
  | cmp op => exact ha.append he
  | isIn => exact hin
  | notIn => exact hin

end Named

/-- **The calls of a tree of the grammar are named by its tokens.**  In a chain the last
operand stands apart, for the next comparison repeats it. -/
theorem named_of_derives {lang : Lang} {s : Sym} {w : List Tok} {e : Expr}
    (h : Derives lang s w e) : Named w e.calls ∧ ∀ l, s = .chain l → Named w l.calls := by
  induction h with
  | cond _ ih | or_one _ ih | and_one _ ih | not_one _ ih | cmp_one _ ih | add_one _ ih
  | mul_one _ ih | unary_one _ ih | postfix_one _ ih | cmp_chain _ ih => exact ⟨ih.1, nofun⟩
  | not_more _ _ ih | neg _ ih | ite _ _ ih => exact ⟨ih.1.mono (by simp +contextual), nofun⟩
  | paren _ ih | list _ ih | list_comma _ ih =>
    exact ⟨ih.1.mono (by simp +contextual), nofun⟩
  | or_more _ _ _ ha hb | and_more _ _ _ ha hb | add_more _ _ _ ha hb | mul_more _ _ _ ha hb
  | index _ _ ha hb =>
    refine ⟨Named.append (ha.1.mono ?_) (hb.1.mono ?_), nofun⟩
    all_goals simp +contextual
  | ternary _ _ _ _ he ht hf =>
    refine ⟨Named.append (ht.1.mono ?_) (Named.append (he.1.mono ?_) (hf.1.mono ?_)), nofun⟩
    all_goals simp +contextual
  | branches_else _ _ _ hc ht hf | branches_if _ _ _ hc ht hf =>
    refine ⟨Named.append (hc.1.mono ?_) (Named.append (ht.1.mono ?_) (hf.1.mono ?_)), nofun⟩
    all_goals simp +contextual
  | @chain_one w a k v b _ _ ha hb =>
    have hlast : Named (w ++ (cmpToks k ++ v)) b.calls := hb.1.mono (by simp +contextual)
    refine ⟨Named.comparison (ha.1.mono fun t => List.mem_append_left _) hlast, ?_⟩
    rintro _ ⟨⟩
    exact hlast
  | @chain_more w e b k v c _ _ he hc =>
    have hlast : Named (w ++ (cmpToks k ++ v)) c.calls := hc.1.mono (by simp +contextual)
    have hbefore : Named (w ++ (cmpToks k ++ v)) b.calls :=
      (he.2 b rfl).mono fun t => List.mem_append_left _
    refine ⟨(he.1.mono fun t => List.mem_append_left _).append
      (Named.comparison hbefore hlast), ?_⟩
    rintro _ ⟨⟩
    exact hlast
  | contains _ _ he ha =>
    refine ⟨Named.method (Named.append (he.1.mono ?_) (Named.append (ha.1.mono ?_) .nil)), nofun⟩
    all_goals simp +contextual
  | literal _ | list_nil | name => exact ⟨.nil, nofun⟩
  | call_nil hb => exact ⟨.call List.mem_cons_self hb .nil, nofun⟩
  | call hb _ ih =>
    exact ⟨.call List.mem_cons_self hb (ih.1.mono (by simp +contextual)), nofun⟩
  | items_one _ ih => exact ⟨ih.1.append .nil, nofun⟩
  | items_more _ _ ih hs =>
    refine ⟨Named.append (ih.1.mono ?_) (hs.1.mono ?_), nofun⟩
    all_goals simp +contextual

/-- The calls of a list are those of its items in order. -/
theorem callsAll_append (es es' : List Expr) :
    Expr.callsAll (es ++ es') = Expr.callsAll es ++ Expr.callsAll es' := by
  induction es with
  | nil => rfl
  | cons e es ih => rw [List.cons_append, Expr.callsAll, Expr.callsAll, ih, List.append_assoc]

/-- Compiling keeps the calls of every binding. -/
theorem calls_bindTrees (bs : List (String × Expr)) (b : Bindings) :
    Expr.callsAll ((bindTrees b bs).body.map LetBinding.expr) =
      Expr.callsAll (b.body.map LetBinding.expr) ++ Expr.callsAll (bs.map Prod.snd) := by
  induction bs generalizing b with
  | nil => exact (List.append_nil _).symm
  | cons xe bs ih =>
    obtain ⟨x, e⟩ := xe
    rw [bindTrees, ih, bindTree, List.map_append, callsAll_append, List.append_assoc]
    simp only [List.map_cons, List.map_nil, Expr.callsAll, calls_resolveIn, List.append_nil]

/-- **Every call of a program is named by one of its tokens**, or is the method. -/
theorem named_of_derivation {lang : Lang} {ts : List Tok} {bs : List (String × Expr)} {r : Expr}
    (h : Derivation lang ts bs r) : Named ts (Expr.callsAll (bs.map Prod.snd) ++ r.calls) := by
  induction h with
  | ret h => exact (named_of_derives h).1
  | semi h => exact (named_of_derives h).1.mono fun t => List.mem_append_left _
  | letIn _ h _ ih =>
    rw [List.map_cons, Expr.callsAll, List.append_assoc]
    refine Named.append ((named_of_derives h).1.mono ?_) (ih.mono ?_)
    all_goals simp +contextual

/-- **What a parsed program calls is named by the tokens of its text.** -/
theorem named_of_parse {src : String} {lang : Lang} {p : Program} (h : parse src lang = .ok p) :
    ∃ toks, Lex.lex src = .ok toks ∧ Named toks p.calls := by
  obtain ⟨toks, bs, r, hlex, hd, -, rfl⟩ := compiled_of_parse h
  refine ⟨toks, hlex, ?_⟩
  have hcalls : Expr.callsAll ((compiled bs r).1.body.map LetBinding.expr) =
      Expr.callsAll (bs.map Prod.snd) := calls_bindTrees bs ⟨[], 0, []⟩
  rw [Program.calls, hcalls, compiled, calls_resolveIn]
  exact named_of_derivation hd

end Grammar

/-! ## Names in the text -/

namespace Lex

/-- What is found in a list of pairs is in it. -/
theorem mem_of_lookup {α β : Type} [BEq α] [LawfulBEq α] {l : List (α × β)} {a : α} {b : β}
    (h : l.lookup a = some b) : (a, b) ∈ l := by
  obtain ⟨l₁, l₂, rfl, -⟩ := List.lookup_eq_some_iff.mp h
  exact List.mem_append_right _ List.mem_cons_self

/-- The bytes of a word are letters and digits. -/
theorem isWord_of_mem (b : List UInt8) (i : ℕ) :
    ∀ c ∈ (b.drop i).take (wordEnd b i - i), (isAlpha c || isDigit c) = true := by
  fun_induction wordEnd b i with
  | case1 i hi hc ih =>
    have hle := le_wordEnd b (i + 1)
    rw [List.drop_eq_getElem_cons hi, show wordEnd b (i + 1) - i = wordEnd b (i + 1) - (i + 1) + 1
      by omega, List.take_succ_cons]
    exact List.forall_mem_cons.mpr ⟨hc, ih⟩
  | case2 i hi hc => simp
  | case3 i hi => simp

/-- ASCII bytes are the bytes of their text. -/
theorem utf8_text {bs : List UInt8} (h : ∀ b ∈ bs, b.toNat < 0x80) : utf8 (text bs) = bs := by
  obtain ⟨cs, rfl⟩ : ∃ cs, bytes cs = bs := ⟨_, bytes_map_ofNat h⟩
  have hvalid : validPrefix (bytes cs) = (cs, (bytes cs).length) := validPrefix_encode cs
  rw [text, hvalid, utf8_ofList]

/-- The word of a round stands in the text. -/
theorem utf8_word {b word : List UInt8} {i : ℕ}
    (h : (strSlice b i (wordEnd b i) : Outcome DslError (List UInt8)) = .ok word) :
    utf8 (text word) <:+: b := by
  unfold strSlice at h
  split_ifs at h
  obtain rfl := Outcome.ok.inj h
  rw [utf8_text fun c hc => ?_]
  · exact (List.take_prefix _ _).isInfix.trans (List.drop_suffix i b).isInfix
  · rcases Bool.or_eq_true_iff.mp (isWord_of_mem b i c hc) with ha | hd
    · exact toNat_lt_of_isAlpha ha
    · exact toNat_lt_of_isDigit hd

/-- A word is its own name, unless it is a keyword. -/
theorem eq_of_wordTok {word x : String} (h : wordTok word = .ident x) : word = x := by
  unfold wordTok at h
  split_ifs at h
  exact Tok.ident.inj h

/-- Only a word is a name. -/
theorem ident_of_lexStep {b : List UInt8} {i j : ℕ} {c : UInt8} {x : String}
    (h : lexStep b i c = .ok (some (.ident x), j)) : utf8 x <:+: b := by
  unfold lexStep at h
  split_ifs at h with hs hd ha hq
  · cases h
  · obtain ⟨⟨k, isFloat⟩, -, h⟩ := Outcome.bind_eq_ok.mp h
    obtain ⟨slice, -, h⟩ := Outcome.bind_eq_ok.mp h
    split_ifs at h
    all_goals
      split at h
      · cases h
      · cases h
  · obtain ⟨word, hword, h⟩ := Outcome.bind_eq_ok.mp h
    obtain ⟨htok, -⟩ := Prod.mk.inj (Outcome.ok.inj h)
    rw [← eq_of_wordTok (Option.some_inj.mp htok)]
    exact utf8_word hword
  · unfold lexString at h
    dsimp only at h
    split_ifs at h
    obtain ⟨raw, -, h⟩ := Outcome.bind_eq_ok.mp h
    cases h
  · obtain ⟨two, -, h⟩ := Outcome.bind_eq_ok.mp h
    split at h
    · next t htwo =>
      obtain rfl := Option.some_inj.mp (Prod.mk.inj (Outcome.ok.inj h)).1
      unfold twoCharTok at htwo
      split_ifs at htwo <;> cases htwo
    · split at h
      · next t hone =>
        obtain rfl := Option.some_inj.mp (Prod.mk.inj (Outcome.ok.inj h)).1
        have hmem := mem_of_lookup hone
        simp [oneCharToks] at hmem
      · cases h

/-- **A name among the tokens stands in the text.** -/
theorem ident_of_lexLoop {b : List UInt8} {i : ℕ} {toks : List Tok} {x : String}
    (h : lexLoop b i = .ok toks) (hx : .ident x ∈ toks) : utf8 x <:+: b := by
  induction hn : b.length - i using Nat.strong_induction_on generalizing i toks with
  | _ n ih =>
    by_cases hi : i < b.length
    · cases hstep : lexStep b i b[i] with
      | ok out =>
        obtain ⟨t, j⟩ := out
        rw [lexLoop_of_step (List.getElem?_eq_getElem hi) hstep] at h
        obtain ⟨ts, hts, hcons⟩ := Outcome.bind_eq_ok.mp h
        obtain rfl := Outcome.ok.inj hcons
        rcases List.mem_append.mp hx with hx | hx
        · rw [Option.mem_toList.mp hx] at hstep
          exact ident_of_lexStep hstep
        · have hlt := lexStep_lt hi hstep
          exact ih _ (by omega) hts hx rfl
      | _ =>
        rw [lexLoop, dif_pos hi] at h
        split at h <;> simp_all
    · rw [lexLoop, dif_neg hi] at h
      obtain rfl := Outcome.ok.inj h
      cases hx

end Lex

/-- **The names of what a parsed program calls stand in its text.** -/
theorem Grammar.name_of_parse {src : String} {lang : Lang} {p : Program} {b : Builtin}
    (h : parse src lang = .ok p) (hb : b ∈ p.calls) (hne : b ≠ .contains) :
    ∃ x ∈ names b, utf8 x <:+: utf8 src := by
  obtain ⟨toks, hlex, hnamed⟩ := named_of_parse h
  obtain ⟨x, hx, hname⟩ := hnamed b hb hne
  exact ⟨x, hname, Lex.ident_of_lexLoop hlex hx⟩
