/-
# Recursive-descent parsers over a list of tokens

A parser reads from the front of a list of tokens and returns a value and the
rest of the list; it is a monad.  The module has the cursor operations of a
hand-written parser (`peek`, `advance`, `eat`, `expect`), the loops such a
parser is made of, and the property that makes it total.

`Consumes n k p` says that on at most `n` tokens `p` returns, and that it has
consumed at least `k` of them when it returns a value.  There is one rule for
each operation and loop, so that totality of a parser is read off its text.  A
loop gets as fuel the number of tokens it starts with and one more; since each of
its rounds consumes a token, the fuel lasts (`Consumes.suffixed`,
`Consumes.commaList`).
-/
import Mathlib.Data.List.Basic
import Mathlib.Order.Nat
import PySpell.Lib.Outcome

/-- A parser: from tokens to a value and the remaining tokens. -/
def TokenParser (τ ε α : Type) : Type := List τ → Outcome ε (α × List τ)

namespace TokenParser

variable {τ ε α β : Type}

instance : Monad (TokenParser τ ε) where
  pure a := fun ts => .ok (a, ts)
  bind p f := fun ts => p ts >>= fun r => f r.1 r.2

@[simp] theorem pure_run (a : α) (ts : List τ) : (pure a : TokenParser τ ε α) ts = .ok (a, ts) :=
  rfl

@[simp] theorem bind_run (p : TokenParser τ ε α) (f : α → TokenParser τ ε β) (ts : List τ) :
    (p >>= f) ts = (p ts >>= fun r => f r.1 r.2) := rfl

/-! ## The cursor -/

def fail (e : ε) : TokenParser τ ε α := fun _ => .err e

/-- A computation that does not look at the tokens. -/
def lift (x : Outcome ε α) : TokenParser τ ε α := fun ts => x >>= fun a => .ok (a, ts)

def peek : TokenParser τ ε (Option τ) := fun ts => .ok (ts.head?, ts)

def advance : TokenParser τ ε (Option τ) := fun ts => .ok (ts.head?, ts.tail)

def eat [DecidableEq τ] (t : τ) : TokenParser τ ε Bool := fun ts =>
  if ts.head? = some t then .ok (true, ts.tail) else .ok (false, ts)

def expect [DecidableEq τ] (t : τ) (e : ε) : TokenParser τ ε Unit := do
  if ← eat t then pure () else fail e

/-! ## Loops -/

/-- Operators in front of an operand. -/
def prefixed (op : τ → Option (α → α)) (operand : TokenParser τ ε α) : TokenParser τ ε α
  | [] => operand []
  | t :: ts =>
    match op t with
    | some f => prefixed op operand ts >>= fun r => .ok (f r.1, r.2)
    | none => operand (t :: ts)

/-- The loop of `suffixed`. -/
def suffixLoop (op : τ → Option (TokenParser τ ε (α → α))) : ℕ → α → TokenParser τ ε α
  | 0, _ => fun _ => .outOfFuel
  | n + 1, e => do
    match (← peek).bind op with
    | some p =>
      let _ ← advance
      let f ← p
      suffixLoop op n (f e)
    | none => pure e

/-- An operand and suffixes, each announced by its first token. -/
def suffixed (op : τ → Option (TokenParser τ ε (α → α))) (operand : TokenParser τ ε α) :
    TokenParser τ ε α := fun ts =>
  (operand >>= suffixLoop op (ts.length + 1)) ts

/-- Operands joined by operators that associate to the left. -/
def leftAssoc (op : τ → Option (α → α → α)) (operand : TokenParser τ ε α) :
    TokenParser τ ε α :=
  suffixed (fun t => (op t).map fun f => do
    let right ← operand
    pure fun left => f left right) operand

/-- The loop of `commaList`. -/
def commaLoop [DecidableEq τ] (comma : τ) (stop : Option τ → Bool)
    (item : TokenParser τ ε α) : ℕ → List α → TokenParser τ ε (List α)
  | 0, _ => fun _ => .outOfFuel
  | n + 1, items => do
    let e ← item
    if ← eat comma then
      if stop (← peek) then pure (items ++ [e])
      else commaLoop comma stop item n (items ++ [e])
    else pure (items ++ [e])

/-- Items with commas between them; after a comma, `stop` may end the list. -/
def commaList [DecidableEq τ] (comma : τ) (stop : Option τ → Bool)
    (item : TokenParser τ ε α) : TokenParser τ ε (List α) := fun ts =>
  commaLoop comma stop item (ts.length + 1) [] ts

/-! ## Totality -/

/-- On at most `n` tokens `p` returns, and a value has cost at least `k` of them. -/
def Consumes (n k : ℕ) (p : TokenParser τ ε α) : Prop :=
  ∀ ts : List τ, ts.length ≤ n →
    (p ts).Returns ∧ ∀ a ts', p ts = .ok (a, ts') → ts'.length + k ≤ ts.length

namespace Consumes

variable {n k l m : ℕ} {p : TokenParser τ ε α} {f : α → TokenParser τ ε β}

theorem returns (h : Consumes n k p) {ts : List τ} (hts : ts.length ≤ n) : (p ts).Returns :=
  (h ts hts).1

theorem length_le (h : Consumes n k p) {ts ts' : List τ} {a : α} (hts : ts.length ≤ n)
    (hp : p ts = .ok (a, ts')) : ts'.length + k ≤ ts.length :=
  (h ts hts).2 a ts' hp

theorem mono (h : Consumes n k p) (hn : m ≤ n) (hk : l ≤ k) : Consumes m l p := fun ts hts =>
  ⟨h.returns (by omega), fun _ _ hp => by
    have := h.length_le (by omega) hp
    omega⟩

theorem pure (a : α) : Consumes n 0 (pure a : TokenParser τ ε α) := fun ts _ =>
  ⟨trivial, fun b ts' h => by
    obtain ⟨-, rfl⟩ := Prod.mk.inj (Outcome.ok.inj h)
    rfl⟩

theorem fail (e : ε) : Consumes n k (fail e : TokenParser τ ε α) := fun ts _ =>
  ⟨trivial, fun a ts' h => by cases h⟩

theorem lift {x : Outcome ε α} (h : x.Returns) : Consumes n 0 (lift x : TokenParser τ ε α) := by
  intro ts _
  refine ⟨Outcome.returns_bind.mpr ⟨h, fun a _ => trivial⟩, fun a ts' hp => ?_⟩
  obtain ⟨b, -, hb⟩ := Outcome.bind_eq_ok.mp hp
  obtain ⟨-, rfl⟩ := Prod.mk.inj (Outcome.ok.inj hb)
  rfl

theorem peek : Consumes n 0 (peek : TokenParser τ ε (Option τ)) := fun ts _ =>
  ⟨trivial, fun a ts' h => by
    obtain ⟨-, rfl⟩ := Prod.mk.inj (Outcome.ok.inj h)
    rfl⟩

theorem advance : Consumes n 0 (advance : TokenParser τ ε (Option τ)) := fun ts _ =>
  ⟨trivial, fun a ts' h => by
    obtain ⟨-, rfl⟩ := Prod.mk.inj (Outcome.ok.inj h)
    simp⟩

theorem eat [DecidableEq τ] (t : τ) : Consumes n 0 (eat t : TokenParser τ ε Bool) := by
  intro ts _
  unfold TokenParser.eat
  split_ifs
  · exact ⟨trivial, fun a ts' h => by
      obtain ⟨-, rfl⟩ := Prod.mk.inj (Outcome.ok.inj h)
      simp⟩
  · exact ⟨trivial, fun a ts' h => by
      obtain ⟨-, rfl⟩ := Prod.mk.inj (Outcome.ok.inj h)
      rfl⟩

/-! ### One parser behind another -/

/-- **Sequencing adds up what the parts consume.** -/
theorem bind (hp : Consumes n k p) (hf : ∀ a, Consumes (n - k) l (f a)) :
    Consumes n (k + l) (p >>= f) := by
  intro ts hts
  have hstep : ∀ a ts', p ts = .ok (a, ts') → ts'.length ≤ n - k := fun a ts' h => by
    have := hp.length_le hts h
    omega
  constructor
  · refine Outcome.returns_bind.mpr ⟨hp.returns hts, fun r hr => ?_⟩
    exact (hf r.1).returns (hstep r.1 r.2 hr)
  · intro b ts' h
    obtain ⟨⟨a, ts₁⟩, ha, hb⟩ := Outcome.bind_eq_ok.mp h
    have h1 := hp.length_le hts ha
    have h2 := (hf a).length_le (hstep a ts₁ ha) hb
    omega

/-- Sequencing after a part that need not consume. -/
theorem bind_left (hp : Consumes n 0 p) (hf : ∀ a, Consumes n k (f a)) :
    Consumes n k (p >>= f) := by
  simpa using hp.bind hf

/-- Sequencing before a part that need not consume. -/
theorem bind_right (hp : Consumes n k p) (hf : ∀ a, Consumes (n - k) 0 (f a)) :
    Consumes n k (p >>= f) :=
  hp.bind hf

/-- Without tokens, what must consume yields no value. -/
theorem bind_of_nil (h : Consumes 0 1 p) : Consumes 0 k (p >>= f) := by
  intro ts hts
  have hno : ∀ r, p ts ≠ .ok r := by
    rintro ⟨a, ts'⟩ hr
    have := h.length_le hts hr
    omega
  constructor
  · exact Outcome.returns_bind.mpr ⟨h.returns hts, fun r hr => absurd hr (hno r)⟩
  · intro b ts' hb
    obtain ⟨r, hr, -⟩ := Outcome.bind_eq_ok.mp hb
    exact absurd hr (hno r)

theorem expect [DecidableEq τ] (t : τ) (e : ε) :
    Consumes n 0 (expect t e : TokenParser τ ε Unit) :=
  (eat t).bind_left fun b => by
    cases b
    · exact fail e
    · exact pure ()

/-- Advancing consumes a token, if there is one. -/
theorem advance_bind {f : Option τ → TokenParser τ ε β}
    (hnone : Consumes 0 (k + 1) (f none)) (hsome : ∀ t, ∀ m < n, Consumes m k (f (some t))) :
    Consumes n (k + 1) (TokenParser.advance >>= f) := by
  intro ts hts
  rcases ts with _ | ⟨t, ts⟩
  · exact hnone [] le_rfl
  · have hrest := hsome t ts.length hts
    exact ⟨hrest.returns le_rfl, fun a ts' hp => by
      have := hrest.length_le le_rfl hp
      simp only [List.length_cons]
      omega⟩

theorem prefixed {op : τ → Option (α → α)} {operand : TokenParser τ ε α}
    (h : Consumes n 1 operand) : Consumes n 1 (prefixed op operand) := by
  intro ts
  induction ts with
  | nil => exact h []
  | cons t ts ih =>
    intro hts
    rw [TokenParser.prefixed]
    split
    · obtain ⟨hr, hl⟩ := ih (by simp only [List.length_cons] at hts; omega)
      refine ⟨Outcome.returns_bind.mpr ⟨hr, fun _ _ => trivial⟩, fun a ts' hp => ?_⟩
      obtain ⟨⟨b, ts₁⟩, hb, he⟩ := Outcome.bind_eq_ok.mp hp
      obtain ⟨-, rfl⟩ := Prod.mk.inj (Outcome.ok.inj he)
      have := hl b ts₁ hb
      simp only [List.length_cons]
      omega
    · exact h (t :: ts) hts

/-- A round of the loop consumes the token that announces the suffix, so the fuel
lasts. -/
theorem suffixLoop {op : τ → Option (TokenParser τ ε (α → α))}
    (h : ∀ t p, op t = some p → ∀ m < n, Consumes m 0 p) :
    ∀ {fuel : ℕ} {e : α}, n < fuel → Consumes n 0 (suffixLoop op fuel e) := by
  intro fuel
  induction fuel generalizing n with
  | zero => intro e hlt; omega
  | succ fuel ih =>
    intro e hlt ts hts
    simp only [TokenParser.suffixLoop, bind_run, TokenParser.peek, Outcome.ok_bind]
    rcases hop : ts.head?.bind op with _ | q
    · exact Consumes.pure e ts hts
    · rcases ts with _ | ⟨t, ts⟩
      · cases hop
      · have hn : 0 < n := by
          simp only [List.length_cons] at hts
          omega
        have hrest : Consumes (n - 1) 0 (q >>= fun f => TokenParser.suffixLoop op fuel (f e)) :=
          (h t q hop (n - 1) (by omega)).bind_left fun f =>
            ih (fun t p hp m hm => h t p hp m (by omega)) (by omega)
        have hlen : ts.length ≤ n - 1 := by
          simp only [List.length_cons] at hts
          omega
        -- the loop has advanced past `t`
        exact ⟨hrest.returns hlen, fun a ts' hp => by
          have := hrest.length_le hlen hp
          simp only [List.length_cons]
          omega⟩

theorem suffixed {op : τ → Option (TokenParser τ ε (α → α))} {operand : TokenParser τ ε α}
    (h : Consumes n 1 operand) (hop : ∀ t p, op t = some p → ∀ m < n, Consumes m 0 p) :
    Consumes n 1 (suffixed op operand) := by
  intro ts hts
  have : Consumes ts.length 1 (operand >>= TokenParser.suffixLoop op (ts.length + 1)) :=
    (h.mono hts le_rfl).bind_right fun left =>
      suffixLoop (fun t p hp m hm => hop t p hp m (by omega)) (by omega)
  exact this ts le_rfl

theorem leftAssoc {op : τ → Option (α → α → α)} {operand : TokenParser τ ε α}
    (h : Consumes n 1 operand) : Consumes n 1 (leftAssoc op operand) := by
  refine suffixed h fun t p hp m hm => ?_
  obtain ⟨f, -, rfl⟩ := Option.map_eq_some_iff.mp hp
  exact (h.mono (by omega) (by omega)).bind_left fun right => pure _

theorem commaLoop [DecidableEq τ] {comma : τ} {stop : Option τ → Bool}
    {item : TokenParser τ ε α} (h : Consumes n 1 item) :
    ∀ {fuel : ℕ} {items : List α}, n < fuel →
      Consumes n 1 (commaLoop comma stop item fuel items) := by
  intro fuel
  induction fuel generalizing n with
  | zero => intro items hlt; omega
  | succ fuel ih =>
    intro items hlt
    rcases Nat.eq_zero_or_pos n with rfl | hn
    · exact h.bind_of_nil
    · refine h.bind_right fun e => (eat comma).bind_left fun b => ?_
      cases b
      · exact pure _
      · refine peek.bind_left fun t => ?_
        split_ifs
        · exact pure _
        · exact (ih (h.mono (by omega) le_rfl) (by omega)).mono le_rfl (by omega)

theorem commaList [DecidableEq τ] {comma : τ} {stop : Option τ → Bool}
    {item : TokenParser τ ε α} (h : Consumes n 1 item) :
    Consumes n 1 (commaList comma stop item) := fun ts hts =>
  commaLoop (h.mono hts le_rfl) (by omega) ts le_rfl

end Consumes

end TokenParser
