/-
# Parsers of a grammar

A grammar gives values to lists of tokens.  A recursive-descent parser reads the front
of a list and leaves a rest.  Two properties connect them:

* `Reads stop p w a`: `p` reads `w` as `a`, in front of every rest that `stop` admits;
* `Sound p G`: the grammar `G` gives what `p` returns to the tokens that `p` consumed.

There is a rule of either kind for each operation and loop of `TokenParser`.  A loop is
greedy, while a left-recursive rule of a grammar adds one operator at a time; `Continues`
goes between them: after `w` the loop goes on from `a`.
-/
import PySpell.Lib.TokenParser

namespace TokenParser

variable {τ ε α β : Type}

/-! ## Reading -/

/-- `p` reads `w` as `a`, in front of every rest that `stop` admits. -/
def Reads (stop : List τ → Prop) (p : TokenParser τ ε α) (w : List τ) (a : α) : Prop :=
  ∀ r, stop r → p (w ++ r) = .ok (a, r)

namespace Reads

variable {stop stop' : List τ → Prop} {p : TokenParser τ ε α} {f : α → TokenParser τ ε β}
  {w v : List τ} {a : α} {b : β} {t : τ}

theorem mono (h : Reads stop p w a) (hstop : ∀ r, stop' r → stop r) : Reads stop' p w a :=
  fun r hr => h r (hstop r hr)

theorem pure (a : α) : Reads stop (pure a : TokenParser τ ε α) [] a := fun _ _ => rfl

/-- **Sequencing**, when the second part begins with what the first admits. -/
theorem bind (hp : Reads stop p w a) (hstop : ∀ r, stop' r → stop (v ++ r))
    (hf : Reads stop' (f a) v b) : Reads stop' (p >>= f) (w ++ v) b := by
  intro r hr
  rw [bind_run, List.append_assoc, hp (v ++ r) (hstop r hr), Outcome.ok_bind]
  exact hf r hr

/-- A part whose value goes into the result. -/
theorem map (h : Reads stop p w a) (g : α → β) :
    Reads stop (do
      let a ← p
      Pure.pure (g a)) w (g a) := by
  have hbind := h.bind (f := fun a => (Pure.pure (g a) : TokenParser τ ε β)) (fun r hr => hr)
    (pure (g a))
  rwa [List.append_nil] at hbind

theorem advance_bind {f : Option τ → TokenParser τ ε β} (h : Reads stop (f (some t)) w b) :
    Reads stop (advance >>= f) (t :: w) b := h

theorem peek_bind {f : Option τ → TokenParser τ ε β} (h : Reads stop (f (some t)) (t :: w) b) :
    Reads stop (peek >>= f) (t :: w) b := h

theorem lift_bind {x : Outcome ε α} (hx : x = .ok a) (h : Reads stop (f a) w b) :
    Reads stop (lift x >>= f) w b := by
  rw [hx]
  exact h

theorem expect_bind [DecidableEq τ] {e : ε} {f : Unit → TokenParser τ ε β}
    (h : Reads stop (f ()) w b) : Reads stop (expect t e >>= f) (t :: w) b := by
  intro r hr
  have heat : (expect t e : TokenParser τ ε Unit) (t :: w ++ r) = .ok ((), w ++ r) := by
    rw [expect, bind_run, eat, List.cons_append, List.head?_cons, if_pos rfl]
    rfl
  rw [bind_run, heat, Outcome.ok_bind]
  exact h r hr

theorem prefixed_more {op : τ → Option (α → α)} {operand : TokenParser τ ε α} {f : α → α}
    (hop : op t = some f) (h : Reads stop (prefixed op operand) w a) :
    Reads stop (prefixed op operand) (t :: w) (f a) := by
  intro r hr
  rw [List.cons_append, prefixed]
  simp only [hop]
  rw [h r hr, Outcome.ok_bind]

theorem prefixed_one {op : τ → Option (α → α)} {operand : TokenParser τ ε α} (hop : op t = none)
    (h : Reads stop operand (t :: w) a) : Reads stop (prefixed op operand) (t :: w) a := by
  intro r hr
  rw [List.cons_append, prefixed]
  simp only [hop]
  exact h r hr

end Reads

/-- After an operand and suffixes that make up `w`, the loop goes on from `a`. -/
def Continues (stop : List τ → Prop) (op : τ → Option (TokenParser τ ε (α → α)))
    (operand : TokenParser τ ε α) (w : List τ) (a : α) : Prop :=
  ∀ r, stop r → ∀ fuel, (w ++ r).length < fuel →
    ∃ fuel', r.length < fuel' ∧
      (operand >>= suffixLoop op fuel) (w ++ r) = suffixLoop op fuel' a r

namespace Continues

variable {stop stop' : List τ → Prop} {op : τ → Option (TokenParser τ ε (α → α))}
  {operand : TokenParser τ ε α} {w v : List τ} {a b : α} {t : τ}

theorem one (h : Reads stop operand w a) : Continues stop op operand w a := by
  intro r hr fuel hfuel
  rw [List.length_append] at hfuel
  refine ⟨fuel, by omega, ?_⟩
  rw [bind_run, h r hr, Outcome.ok_bind]

/-- **One more suffix.** -/
theorem more {p : TokenParser τ ε (α → α)} {f : α → α} (h : Continues stop op operand w a)
    (hop : op t = some p) (ht : ∀ r, stop (t :: r)) (hp : Reads stop p v f) :
    Continues stop op operand (w ++ t :: v) (f a) := by
  intro r hr fuel hfuel
  rw [List.append_assoc, List.cons_append] at hfuel ⊢
  obtain ⟨n, hn, heq⟩ := h (t :: (v ++ r)) (ht _) fuel hfuel
  rw [List.length_cons, List.length_append] at hn
  obtain ⟨n, rfl⟩ : ∃ m, n = m + 1 := ⟨n - 1, by omega⟩
  refine ⟨n, by omega, ?_⟩
  rw [heq, suffixLoop]
  simp only [bind_run, peek, Outcome.ok_bind, List.head?_cons, Option.bind_some, hop]
  change (advance >>= fun _ => p >>= fun f => suffixLoop op n (f a)) (t :: (v ++ r)) = _
  rw [bind_run, advance, Outcome.ok_bind, List.tail_cons, bind_run, hp r hr, Outcome.ok_bind]

/-- **The loop stops** where no suffix follows. -/
theorem suffixed (h : Continues stop op operand w a)
    (hstop : ∀ r, stop' r → stop r ∧ r.head?.bind op = none) :
    Reads stop' (suffixed op operand) w a := by
  intro r hr
  obtain ⟨hr', hnone⟩ := hstop r hr
  obtain ⟨n, hn, heq⟩ := h r hr' ((w ++ r).length + 1) (Nat.lt_succ_self _)
  obtain ⟨n, rfl⟩ : ∃ m, n = m + 1 := ⟨n - 1, by omega⟩
  rw [TokenParser.suffixed, heq, suffixLoop]
  simp only [bind_run, peek, Outcome.ok_bind, hnone]
  rfl

/-- One more operator that associates to the left. -/
theorem leftAssoc_more {op : τ → Option (α → α → α)} {f : α → α → α}
    (h : Continues stop (fun t => (op t).map fun f => do
      let right ← operand
      Pure.pure fun left => f left right) operand w a)
    (hop : op t = some f) (ht : ∀ r, stop (t :: r)) (hv : Reads stop operand v b) :
    Continues stop (fun t => (op t).map fun f => do
      let right ← operand
      Pure.pure fun left => f left right) operand (w ++ t :: v) (f a b) := by
  refine h.more (p := do
    let right ← operand
    Pure.pure fun left => f left right) ?_ ht (hv.map fun right left => f left right)
  rw [hop]
  rfl

end Continues

/-! ## Lists with commas -/

section Commas

variable [DecidableEq τ] {stop : List τ → Prop} {comma : τ} {last : Option τ → Bool}
  {item : TokenParser τ ε α} {w r : List τ} {a : α}

theorem commaLoop_of_last (h : Reads stop item w a) (hr : stop r) (hne : r.head? ≠ some comma)
    (fuel : ℕ) (items : List α) :
    commaLoop comma last item (fuel + 1) items (w ++ r) = .ok (items ++ [a], r) := by
  rw [commaLoop, bind_run, h r hr, Outcome.ok_bind, bind_run, eat, if_neg hne]
  rfl

theorem commaLoop_of_trailing (h : Reads stop item w a) (hr : stop (comma :: r))
    (hlast : last r.head? = true) (fuel : ℕ) (items : List α) :
    commaLoop comma last item (fuel + 1) items (w ++ comma :: r) = .ok (items ++ [a], r) := by
  rw [commaLoop, bind_run, h _ hr, Outcome.ok_bind, bind_run, eat, List.head?_cons, if_pos rfl,
    Outcome.ok_bind, if_pos rfl, bind_run, peek, List.tail_cons, Outcome.ok_bind, if_pos hlast]
  rfl

theorem commaLoop_of_more (h : Reads stop item w a) (hr : stop (comma :: r))
    (hlast : last r.head? = false) (fuel : ℕ) (items : List α) :
    commaLoop comma last item (fuel + 1) items (w ++ comma :: r) =
      commaLoop comma last item fuel (items ++ [a]) r := by
  rw [commaLoop, bind_run, h _ hr, Outcome.ok_bind, bind_run, eat, List.head?_cons, if_pos rfl,
    Outcome.ok_bind, if_pos rfl, bind_run, peek, List.tail_cons, Outcome.ok_bind,
    if_neg (by rw [hlast]; exact Bool.false_ne_true)]

end Commas

/-! ## Soundness -/

/-- The grammar `G` gives what `p` returns to the tokens that `p` consumed. -/
def Sound (p : TokenParser τ ε α) (G : List τ → α → Prop) : Prop :=
  ∀ ts a r, p ts = .ok (a, r) → ∃ w, ts = w ++ r ∧ G w a

namespace Sound

variable {p q : TokenParser τ ε α} {f : α → TokenParser τ ε β} {G G' : List τ → α → Prop}
  {H : List τ → β → Prop} {t : τ}

theorem mono (h : Sound p G) (hG : ∀ w a, G w a → G' w a) : Sound p G' := by
  intro ts a r hp
  obtain ⟨w, hw, hg⟩ := h ts a r hp
  exact ⟨w, hw, hG w a hg⟩

theorem pure {a : α} (h : G [] a) : Sound (pure a : TokenParser τ ε α) G := by
  intro ts b r hp
  obtain ⟨rfl, rfl⟩ := Prod.mk.inj (Outcome.ok.inj hp)
  exact ⟨[], rfl, h⟩

theorem fail (e : ε) : Sound (fail e : TokenParser τ ε α) G := by
  intro ts a r hp
  cases hp

/-- **Sequencing**: the tokens of the parts, one after the other. -/
theorem bind (hp : Sound p G) (hf : ∀ w a, G w a → Sound (f a) fun v b => H (w ++ v) b) :
    Sound (p >>= f) H := by
  intro ts b r h
  obtain ⟨⟨a, r₁⟩, ha, hb⟩ := Outcome.bind_eq_ok.mp h
  obtain ⟨w, rfl, hg⟩ := hp ts a r₁ ha
  obtain ⟨v, rfl, hh⟩ := hf w a hg r₁ b r hb
  exact ⟨w ++ v, (List.append_assoc _ _ _).symm, hh⟩

theorem advance_bind {f : Option τ → TokenParser τ ε β} (hnone : Sound (f none) H)
    (hsome : ∀ t, Sound (f (some t)) fun v b => H (t :: v) b) : Sound (advance >>= f) H := by
  intro ts b r h
  cases ts with
  | nil => exact hnone [] b r h
  | cons t ts =>
    obtain ⟨v, rfl, hh⟩ := hsome t ts b r h
    exact ⟨t :: v, rfl, hh⟩

theorem lift_bind {x : Outcome ε α} (hf : ∀ a, x = .ok a → Sound (f a) H) :
    Sound (lift x >>= f) H := by
  intro ts b r h
  cases x with
  | ok a => exact hf a rfl ts b r h
  | err e => cases h
  | panic => cases h
  | outOfFuel => cases h

theorem expect_bind [DecidableEq τ] {e : ε} {f : Unit → TokenParser τ ε β}
    (h : Sound (f ()) fun v b => H (t :: v) b) : Sound (expect t e >>= f) H := by
  intro ts b r hp
  rw [bind_run, expect, bind_run, eat] at hp
  by_cases ht : ts.head? = some t
  · obtain ⟨ts, rfl⟩ : ∃ ts', ts = t :: ts' := by
      cases ts with
      | nil => cases ht
      | cons t' ts => exact ⟨ts, by rw [Option.some_inj.mp ht]⟩
    rw [List.head?_cons, if_pos rfl] at hp
    obtain ⟨v, rfl, hh⟩ := h ts b r hp
    exact ⟨t :: v, rfl, hh⟩
  · rw [if_neg ht] at hp
    cases hp

/-- A token decides between two parts, and the first one consumes it. -/
theorem ifPeek [DecidableEq τ] {q : TokenParser τ ε β} {p : TokenParser τ ε β}
    (hp : Sound p fun v b => H (t :: v) b) (hq : Sound q H) : Sound (do
      if (← peek) = some t then
        let _ ← advance
        p
      else q) H := by
  intro ts b r h
  rw [bind_run, peek, Outcome.ok_bind] at h
  dsimp only at h
  split at h
  · next ht =>
    obtain ⟨ts, rfl⟩ : ∃ ts', ts = t :: ts' := by
      cases ts with
      | nil => cases ht
      | cons t' ts => exact ⟨ts, by rw [Option.some_inj.mp ht]⟩
    obtain ⟨v, rfl, hh⟩ := hp ts b r h
    exact ⟨t :: v, rfl, hh⟩
  · exact hq ts b r h

/-! ### Loops -/

theorem prefixed {op : τ → Option (α → α)} {operand : TokenParser τ ε α} (h : Sound operand G)
    (hone : ∀ w a, G w a → G' w a)
    (hmore : ∀ t f w a, op t = some f → G' w a → G' (t :: w) (f a)) :
    Sound (prefixed op operand) G' := by
  intro ts
  induction ts with
  | nil => exact (h.mono hone) []
  | cons t ts ih =>
    intro a r hp
    rw [TokenParser.prefixed] at hp
    split at hp
    · next f hop =>
      obtain ⟨⟨b, r'⟩, hb, he⟩ := Outcome.bind_eq_ok.mp hp
      obtain ⟨rfl, rfl⟩ := Prod.mk.inj (Outcome.ok.inj he)
      obtain ⟨w, rfl, hw⟩ := ih b r' hb
      exact ⟨t :: w, rfl, hmore t f w b hop hw⟩
    · exact (h.mono hone) (t :: ts) a r hp

/-- What the loop adds to `w`. -/
theorem suffixLoop {op : τ → Option (TokenParser τ ε (α → α))}
    (hmore : ∀ t p w a, op t = some p → G w a → Sound p fun v f => G (w ++ t :: v) (f a)) :
    ∀ {fuel : ℕ} {w : List τ} {a : α}, G w a →
      Sound (suffixLoop op fuel a) fun v b => G (w ++ v) b := by
  intro fuel
  induction fuel with
  | zero => exact fun _ ts b r h => by cases h
  | succ fuel ih =>
    intro w a hw ts b r h
    rw [TokenParser.suffixLoop] at h
    simp only [bind_run, TokenParser.peek, Outcome.ok_bind] at h
    rcases hop : ts.head?.bind op with _ | p
    · rw [hop] at h
      obtain ⟨rfl, rfl⟩ := Prod.mk.inj (Outcome.ok.inj h)
      refine ⟨[], rfl, ?_⟩
      dsimp only
      rwa [List.append_nil]
    · rw [hop] at h
      rcases ts with _ | ⟨t, ts⟩
      · cases hop
      -- the loop has advanced past `t`
      have hstep : (p >>= fun f => TokenParser.suffixLoop op fuel (f a)) ts = .ok (b, r) := h
      have hsound : Sound (p >>= fun f => TokenParser.suffixLoop op fuel (f a))
          fun v b => G (w ++ t :: v) b := by
        refine (hmore t p w a hop hw).bind fun v f hf => ?_
        refine (ih hf).mono fun v' b' hb => ?_
        rwa [List.append_assoc, List.cons_append] at hb
      obtain ⟨v, rfl, hv⟩ := hsound ts b r hstep
      exact ⟨t :: v, rfl, hv⟩

theorem suffixed {op : τ → Option (TokenParser τ ε (α → α))} {operand : TokenParser τ ε α}
    (h : Sound operand G) (hone : ∀ w a, G w a → G' w a)
    (hmore : ∀ t p w a, op t = some p → G' w a → Sound p fun v f => G' (w ++ t :: v) (f a)) :
    Sound (suffixed op operand) G' := fun ts =>
  h.bind (fun w a hw => suffixLoop hmore (hone w a hw)) ts

theorem leftAssoc {op : τ → Option (α → α → α)} {operand : TokenParser τ ε α}
    (h : Sound operand G) (hone : ∀ w a, G w a → G' w a)
    (hmore : ∀ t f w a v b, op t = some f → G' w a → G v b → G' (w ++ t :: v) (f a b)) :
    Sound (leftAssoc op operand) G' := by
  refine h.suffixed hone fun t p w a hop hw => ?_
  obtain ⟨f, hf, rfl⟩ := Option.map_eq_some_iff.mp hop
  refine h.bind fun v b hv => pure ?_
  rw [List.append_nil]
  exact hmore t f w a v b hf hw hv

/-- A list with commas, `L` by its rules; or with one more comma at its end, where `last`
may end the list. -/
theorem commaList [DecidableEq τ] {comma : τ} {last : Option τ → Bool} {item : TokenParser τ ε α}
    {L : List τ → List α → Prop} (h : Sound item G) (hone : ∀ w a, G w a → L w [a])
    (hmore : ∀ w a v l, G w a → L v l → L (w ++ comma :: v) (a :: l)) :
    Sound (commaList comma last item) fun w l =>
      L w l ∨ ∃ v, w = v ++ [comma] ∧ L v l ∧ ∃ o, last o = true := by
  -- the loop adds a list to the items before
  have hloop : ∀ (fuel : ℕ) (items : List α),
      Sound (commaLoop comma last item fuel items) fun w l => ∃ l', l = items ++ l' ∧
        (L w l' ∨ ∃ v, w = v ++ [comma] ∧ L v l' ∧ ∃ o, last o = true) := by
    intro fuel
    induction fuel with
    | zero => exact fun items ts l r hp => by cases hp
    | succ fuel ih =>
      intro items ts l r hp
      obtain ⟨⟨a, r₁⟩, ha, hrest⟩ := Outcome.bind_eq_ok.mp hp
      obtain ⟨w, rfl, hw⟩ := h ts a r₁ ha
      dsimp only at hrest
      rw [bind_run, eat] at hrest
      by_cases hcomma : r₁.head? = some comma
      · obtain ⟨r₂, rfl⟩ : ∃ r₂, r₁ = comma :: r₂ := by
          cases r₁ with
          | nil => cases hcomma
          | cons t ts => exact ⟨ts, by rw [Option.some_inj.mp hcomma]⟩
        rw [if_pos hcomma, Outcome.ok_bind, if_pos rfl, bind_run, peek, Outcome.ok_bind] at hrest
        dsimp only at hrest
        split at hrest
        · next hlast =>
          obtain ⟨rfl, rfl⟩ := Prod.mk.inj (Outcome.ok.inj hrest)
          refine ⟨w ++ [comma], by simp, [a], rfl, Or.inr ⟨w, rfl, hone w a hw, _, hlast⟩⟩
        · obtain ⟨v, hv, l', rfl, hl⟩ := ih (items ++ [a]) _ l r hrest
          rw [List.tail_cons] at hv
          subst hv
          refine ⟨w ++ comma :: v, by simp, a :: l', by simp, ?_⟩
          rcases hl with hl | ⟨u, rfl, hu, o⟩
          · exact Or.inl (hmore w a v l' hw hl)
          · exact Or.inr ⟨w ++ comma :: u, by simp, hmore w a u l' hw hu, o⟩
      · rw [if_neg hcomma, Outcome.ok_bind, if_neg Bool.false_ne_true] at hrest
        obtain ⟨rfl, rfl⟩ := Prod.mk.inj (Outcome.ok.inj hrest)
        exact ⟨w, rfl, [a], rfl, Or.inl (hone w a hw)⟩
  intro ts l r hp
  obtain ⟨w, hw, l', rfl, hl⟩ := hloop _ [] ts l r hp
  exact ⟨w, hw, hl⟩

end Sound

end TokenParser
